import Mathlib.Data.String.Basic
import Promptbook.Proofs.Catalog.Directory

namespace Promptbook

namespace FilePath

theorem namesPrecede_total (as bs : List String) :
    (namesPrecede as bs || namesPrecede bs as) = true := by
  induction as generalizing bs with
  | nil => rfl
  | cons a as ih =>
    cases bs with
    | nil => rfl
    | cons b bs =>
      simp only [namesPrecede, Bool.or_eq_true, Bool.and_eq_true, decide_eq_true_eq, beq_iff_eq]
      obtain hlt | rfl | hgt := lt_trichotomy a b
      · exact .inl (.inl hlt)
      · have hrest := ih bs
        rw [Bool.or_eq_true] at hrest
        exact hrest.imp (fun h => .inr ⟨rfl, h⟩) (fun h => .inr ⟨rfl, h⟩)
      · exact .inr (.inl hgt)

theorem namesPrecede_trans {as bs cs : List String} (hab : namesPrecede as bs = true)
    (hbc : namesPrecede bs cs = true) : namesPrecede as cs = true := by
  induction as generalizing bs cs with
  | nil => rfl
  | cons a as ih =>
    cases bs with
    | nil => cases hab
    | cons b bs =>
      cases cs with
      | nil => cases hbc
      | cons c cs =>
        simp only [namesPrecede, Bool.or_eq_true, Bool.and_eq_true, decide_eq_true_eq,
          beq_iff_eq] at hab hbc ⊢
        obtain hab | ⟨rfl, hab⟩ := hab
        · obtain hbc | ⟨rfl, -⟩ := hbc
          · exact .inl (lt_trans hab hbc)
          · exact .inl hab
        · obtain hbc | ⟨rfl, hbc⟩ := hbc
          · exact .inl hbc
          · exact .inr ⟨rfl, ih hab hbc⟩

theorem precedes_total (p q : FilePath) : (p.precedes q || q.precedes p) = true :=
  namesPrecede_total p.names q.names

theorem precedes_trans (p q r : FilePath) (hpq : p.precedes q = true) (hqr : q.precedes r = true) :
    p.precedes r = true :=
  namesPrecede_trans hpq hqr

theorem pairwise_mergeSort (ps : List FilePath) :
    (ps.mergeSort precedes).Pairwise fun p q => p.precedes q :=
  List.pairwise_mergeSort precedes_trans precedes_total ps

end FilePath

namespace FileTree

variable {t : FileTree} {d p : FilePath} {place names : List String}

theorem below?_eq_some {e : List String × FileNode} :
    below? place e = some names ↔ ∃ bytes, e = (place ++ names, .file bytes) := by
  obtain ⟨at', node⟩ := e
  cases node with
  | directory => simp [below?]
  | file bytes =>
    simp only [below?, Option.ite_none_right_eq_some, Option.some.injEq, Prod.mk.injEq,
      FileNode.file.injEq, exists_and_left, exists_eq', and_true]
    constructor
    · intro h
      obtain ⟨hbelow, rfl⟩ := h
      obtain ⟨rest, rfl⟩ := List.isPrefixOf_iff_prefix.1 hbelow
      rw [List.drop_left]
    · intro h
      rw [h]
      exact ⟨List.isPrefixOf_iff_prefix.2 (List.prefix_append _ _), List.drop_left⟩

theorem files_eq (hplace : t.follow [] d.names = .ok place) :
    t.files d = ((t.nodes.filterMap (below? place)).map fun names =>
      { d with names := d.names ++ names }).mergeSort FilePath.precedes := by
  simp only [files, hplace]

theorem mem_files : p ∈ t.files d ↔ ∃ place names bytes, t.follow [] d.names = .ok place ∧
    (place ++ names, .file bytes) ∈ t.nodes ∧ p = { d with names := d.names ++ names } := by
  cases hplace : t.follow [] d.names with
  | error cause => simp [files, hplace]
  | ok place =>
    rw [files_eq hplace, List.mem_mergeSort, List.mem_map]
    constructor
    · intro h
      obtain ⟨names, hnames, rfl⟩ := h
      obtain ⟨e, he, hbelow⟩ := List.mem_filterMap.1 hnames
      obtain ⟨bytes, rfl⟩ := below?_eq_some.1 hbelow
      exact ⟨place, names, bytes, rfl, he, rfl⟩
    · intro h
      obtain ⟨_, names, bytes, ⟨⟩, he, rfl⟩ := h
      exact ⟨names, List.mem_filterMap.2 ⟨_, he, below?_eq_some.2 ⟨bytes, rfl⟩⟩, rfl⟩

theorem nodup_files (t : FileTree) (d : FilePath) : (t.files d).Nodup := by
  cases hplace : t.follow [] d.names with
  | error cause => simp [files, hplace]
  | ok place =>
    rw [files_eq hplace, (List.mergeSort_perm _ _).nodup_iff]
    have hnames : (t.nodes.filterMap (below? place)).Nodup := by
      refine List.Pairwise.filterMap _ ?_ (List.pairwise_map.1 t.nodup)
      intro e e' hne names hnames names' hnames' he
      obtain ⟨bytes, rfl⟩ := below?_eq_some.1 hnames
      obtain ⟨bytes', rfl⟩ := below?_eq_some.1 hnames'
      exact hne (congrArg (place ++ ·) he)
    refine hnames.map fun names names' he => ?_
    exact List.append_cancel_left (congrArg FilePath.names he)

end FileTree

namespace Definition

variable {t : FileTree} {d p : FilePath} {ps : List FilePath}

/-- A definition file of a directory: a file of any depth below it, with the suffix of a format in
any case. -/
def Stands (t : FileTree) (d p : FilePath) : Prop :=
  t.hasDirectory d = .ok true ∧ p.suffix ∈ Format.suffixes ∧
    ∃ place names bytes, t.follow [] d.names = .ok place ∧
      (place ++ names, .file bytes) ∈ t.nodes ∧ p = { d with names := d.names ++ names }

/-- The paths of the definition files of a directory, each once and in order. -/
structure Lists (t : FileTree) (d : FilePath) (ps : List FilePath) : Prop where
  sorted : ps.Pairwise fun p q => p.precedes q
  nodup : ps.Nodup
  mem_iff : ∀ p, p ∈ ps ↔ Stands t d p

theorem mem_paths : p ∈ paths t d ↔ p ∈ t.files d ∧ p.suffix ∈ Format.suffixes := by
  rw [paths, List.mem_filter, FilePath.format?, Format.ofSuffix?_isSome]

theorem lists_paths (hd : t.hasDirectory d = .ok true) : Lists t d (paths t d) where
  sorted := by
    apply List.Pairwise.filter
    cases hplace : t.follow [] d.names with
    | error cause => simp [FileTree.files, hplace]
    | ok place =>
      rw [FileTree.files_eq hplace]
      exact FilePath.pairwise_mergeSort _
  nodup := (t.nodup_files d).filter _
  mem_iff p := by
    rw [mem_paths, FileTree.mem_files, Stands, and_comm]
    exact (and_iff_right hd).symm

theorem lists_nil (hd : t.hasDirectory d = .ok false) : Lists t d [] where
  sorted := .nil
  nodup := .nil
  mem_iff p := by
    rw [Stands, hd]
    simp

end Definition

def FileNode.letter (id name : String) : FileNode :=
  .file <| ["\x7b\"id\":\"", id, "\",\"name\":", "\"", name, "\",", "\"description\"", ":\"\",",
    "\"category\":", "\"general\",", "\"template\":", "\x7b\"task\":", "\"$\x7bv\x7d\",",
    "\"instructions\"", ":\"Write it\",", "\"context\":", "\x7b\"tone\":\"warm\"\x7d,",
    "\"output_format\":", "\x7b\"structure\":", "\"text\"\x7d,", "\"variables\":", "[\"v\"]\x7d,",
    "\"config\":", "\x7b\"configurable_fields\"", ":[],", "\"default_values\"", ":\x7b\x7d,",
    "\"validation_rules\"", ":\x7b\x7d\x7d,", "\"schema_version\"",
    ":\"1.0\"\x7d"].flatMap fun part => part.toList.map fun c => .ofNat c.toNat

/-- Two directories with definitions. One file in the second one cannot be decoded. -/
def FileTree.twofold : FileTree where
  nodes := [(["own"], .directory), (["own", "a.json"], .letter "letter" "Own letter"),
    (["base"], .directory), (["base", "a.json"], .letter "letter" "Letter"),
    (["base", "b.json"], .letter "note" "Note"), (["base", "c.json"], .file [0xff])]

theorem Definition.paths_own :
    paths .twofold { names := ["own"] } = [{ names := ["own", "a.json"] }] := by
  have hplace : FileTree.twofold.follow [] ["own"] = .ok ["own"] := by decide +kernel
  rw [paths, FileTree.files_eq hplace, List.mergeSort_of_pairwise (by decide +kernel)]
  decide +kernel

theorem Definition.paths_base : paths .twofold { names := ["base"] } =
    [{ names := ["base", "a.json"] }, { names := ["base", "b.json"] },
      { names := ["base", "c.json"] }] := by
  have hplace : FileTree.twofold.follow [] ["base"] = .ok ["base"] := by decide +kernel
  rw [paths, FileTree.files_eq hplace, List.mergeSort_of_pairwise (by decide +kernel)]
  decide +kernel

theorem Catalog.lists_sought {t : FileTree} {directory : FilePath} {ps : List FilePath}
    (hps : sought t directory = .ok ps) :
    ∃ d, directory.expand t.home = .ok d ∧ Definition.Lists t d ps := by
  obtain ⟨d, b, hd, hb, rfl⟩ := sought_eq_ok.1 hps
  refine ⟨d, hd, ?_⟩
  cases b with
  | true => exact Definition.lists_paths hb
  | false => exact Definition.lists_nil hb

end Promptbook

import Promptbook.Proofs.Catalog.Listing
import Promptbook.Proofs.Files.Places

namespace Promptbook

theorem Text.exists_splitChars (sep : Char) (s : List Char) :
    ∃ pieces last, splitChars sep s = pieces ++ [last] ∧ (pieces = [] → last = s) ∧
      (last = [] ↔ ∀ c ∈ s.getLast?, c = sep) ∧
      ∀ u, sep ∉ u → splitChars sep (s ++ u) = pieces ++ [last ++ u] := by
  induction s with
  | nil => exact ⟨[], [], rfl, fun _ => rfl, by simp, fun u hu => splitChars_of_not_mem hu⟩
  | cons c rest ih =>
    obtain ⟨pieces, last, hsplit, hwhole, hlast, happend⟩ := ih
    by_cases hc : c = sep
    · subst hc
      refine ⟨[] :: pieces, last, by simp [splitChars, hsplit], by simp, ?_,
        fun u hu => by simp [splitChars, happend u hu]⟩
      rw [hlast]
      cases rest <;> simp
    · cases pieces with
      | nil =>
        obtain rfl := hwhole rfl
        refine ⟨[], c :: last, by simp [splitChars, hsplit, hc], fun _ => rfl, ?_,
          fun u hu => by simp [splitChars, happend u hu, hc]⟩
        cases last with
        | nil => simp [hc]
        | cons b bs => simpa using hlast
      | cons piece pieces =>
        refine ⟨(c :: piece) :: pieces, last, by simp [splitChars, hsplit, hc], by simp, ?_,
          fun u hu => by simp [splitChars, happend u hu, hc]⟩
        rw [hlast]
        cases rest with
        | nil =>
          rw [splitChars] at hsplit
          cases pieces <;> cases hsplit
        | cons b bs => simp

namespace FilePath

variable {s : String} {piece : List Char} {p : FilePath}

theorem cutName_point {ext : List Char} (hext : '.' ∉ ext) (hne : ext ≠ []) :
    cutName (piece ++ '.' :: ext) =
      if piece = [] then ('.' :: ext, []) else (piece, '.' :: ext) := by
  have hafter : (piece ++ '.' :: ext).reverse.takeWhile (· ≠ '.') = ext.reverse := by
    have hrev : (piece ++ '.' :: ext).reverse = ext.reverse ++ '.' :: piece.reverse := by simp
    rw [hrev, List.takeWhile_append_of_pos]
    · simp
    · intro c hc
      have hdot : c ≠ '.' := fun he => hext (he ▸ List.mem_reverse.1 hc)
      simpa using hdot
  have hlen : (piece ++ '.' :: ext).length = piece.length + (ext.length + 1) := by simp
  rw [cutName, hafter, List.length_reverse, hlen]
  cases piece with
  | nil => simp
  | cons c cs => simp [hne, List.splitAt_eq]

theorem suffix_mem_iff (hs : s ∈ Format.suffixes) (hname : p.name = .ofList (piece ++ s.toList)) :
    p.suffix ∈ Format.suffixes ↔ piece ≠ [] := by
  obtain ⟨ext, hext, hdot, hne, hlower⟩ : ∃ ext, s.toList = '.' :: ext ∧ '.' ∉ ext ∧ ext ≠ [] ∧
      Text.lower (.ofList s.toList) ∈ Format.suffixes := by
    simp only [Format.suffixes, List.mem_cons, List.not_mem_nil, or_false] at hs
    rcases hs with rfl | rfl | rfl <;> exact ⟨_, rfl, by decide, by decide, by decide⟩
  rw [suffix, hname, String.toList_ofList, hext, cutName_point hdot hne, ← hext]
  by_cases hp : piece = []
  · have hbare : Text.lower (.ofList []) ∉ Format.suffixes := by decide
    rw [if_pos hp]
    exact iff_of_false hbare (not_not_intro hp)
  · rw [if_neg hp]
    exact iff_of_true hlower hp

theorem names_ofText_append (name : String) (hs : s ∈ Format.suffixes) : ∃ names piece,
    (ofText (name ++ s)).names = names ++ [.ofList (piece ++ s.toList)] ∧
      (piece = [] ↔ ∀ c ∈ name.toList.getLast?, c = '/') ∧
      (".." ∉ Text.split '/' name → ".." ∉ names ++ [.ofList (piece ++ s.toList)]) := by
  obtain ⟨pieces, last, hsplit, -, hlast, happend⟩ := Text.exists_splitChars '/' name.toList
  obtain ⟨hslash, hlong⟩ : '/' ∉ s.toList ∧ 2 < s.toList.length := by
    simp only [Format.suffixes, List.mem_cons, List.not_mem_nil, or_false] at hs
    rcases hs with rfl | rfl | rfl <;> exact ⟨by decide, by decide⟩
  have hother : ∀ u : String, u.toList.length ≤ 2 → String.ofList (last ++ s.toList) ≠ u := by
    rintro u hu rfl
    rw [String.toList_ofList, List.length_append] at hu
    omega
  refine ⟨(pieces.map String.ofList).filter fun name => name ≠ "" && name ≠ ".", last, ?_, hlast,
    fun hup => ?_⟩
  · have hsplit' : Text.split '/' (name ++ s) =
        pieces.map String.ofList ++ [.ofList (last ++ s.toList)] := by
      rw [Text.split, String.toList_append, happend _ hslash, List.map_append, List.map_singleton]
    have hkept : (decide (String.ofList (last ++ s.toList) ≠ "") &&
        decide (String.ofList (last ++ s.toList) ≠ ".")) = true := by
      simp only [Bool.and_eq_true, decide_eq_true_eq]
      exact ⟨hother "" (by decide), hother "." (by decide)⟩
    rw [ofText, hsplit', List.filter_append, List.filter_singleton, hkept]
    rfl
  · rw [Text.split, hsplit, List.map_append] at hup
    simp only [List.mem_append, List.mem_singleton, not_or] at hup ⊢
    exact ⟨fun hmem => hup.1 (List.mem_of_mem_filter hmem), (hother ".." (by decide)).symm⟩

end FilePath

/-- A file that is there is a definition of a directory exactly if it has the suffix of one and lies
below the directory by names that do not lead up. -/
theorem Definition.stands_iff {t : FileTree} {d p : FilePath} (ht : t.Proper)
    (hp : t.has p = .ok true) (hd : ∃ b, t.hasDirectory d = .ok b) :
    Stands t d p ↔ (∃ bytes, t.look p = .ok (some (.file bytes))) ∧ p.suffix ∈ Format.suffixes ∧
      ∃ names ≠ [], p = { d with names := d.names ++ names } ∧ ".." ∉ names := by
  obtain ⟨node, hnode⟩ := FileTree.has_eq_true.1 hp
  obtain ⟨hnull, hlocate⟩ := FileTree.look_eq_some.1 hnode
  obtain ⟨hlen, hroot, place, hfollow, hfound⟩ := FileTree.locate_eq_ok.1 hlocate
  constructor
  · rintro ⟨hdir, hsuffix, place', names, bytes, hplace', hmem, rfl⟩
    obtain ⟨hne, hup⟩ := ht _ hmem
    have hup' : ".." ∉ names := fun hin => hup (List.mem_append_right _ hin)
    rw [FileTree.follow_append, hplace', ok_bind] at hfollow
    obtain ⟨rfl, -⟩ := FileTree.follow_eq_ok hup' hfollow
    have hfile := FileTree.find?_eq_file.2 ⟨hne, hmem⟩
    cases hfile.symm.trans hfound
    refine ⟨⟨bytes, hnode⟩, hsuffix, names, ?_, rfl, hup'⟩
    rintro rfl
    obtain ⟨-, hlocate'⟩ := FileTree.look_eq_some.1 (FileTree.hasDirectory_eq_true.1 hdir)
    obtain ⟨-, -, q, hq, hfound'⟩ := FileTree.locate_eq_ok.1 hlocate'
    cases hplace'.symm.trans hq
    rw [List.append_nil] at hfound
    cases hfound.symm.trans hfound'
  · rintro ⟨⟨bytes, hlook⟩, hsuffix, names, hne, rfl, hup⟩
    cases hlook.symm.trans hnode
    rw [FileTree.follow_append, bind_eq_ok] at hfollow
    obtain ⟨place', hplace', hrest⟩ := hfollow
    obtain ⟨rfl, hdir⟩ := FileTree.follow_eq_ok hup hrest
    have hnull' : FileTree.hasNull d = false := by
      simp only [FileTree.hasNull, List.any_append, Bool.or_eq_false_iff] at hnull
      exact hnull.1
    exact ⟨FileTree.hasDirectory_of_follow hnull' hroot hplace' (hdir hne) hd, hsuffix, place',
      names, bytes, hplace', (FileTree.find?_eq_file.1 hfound).2, rfl⟩

namespace Catalog

variable {c : Catalog} {t : FileTree} {name : String} {p : FilePath} {ps : List FilePath}

/-- Looking for a definition finds nothing, or one of those that are listed. -/
def FindsListed (c : Catalog) (t : FileTree) (name : String) : Prop :=
  c.find? t name = .ok none ∨
    ∃ p ps, c.find? t name = .ok (some p) ∧ c.paths t = .ok ps ∧ p ∈ ps

/-- A path goes on from a directory of the catalog by names that do not lead up. -/
def Below (c : Catalog) (p : FilePath) : Prop :=
  ∃ d ∈ c.directories, ∃ names ≠ [], p = { d with names := d.names ++ names } ∧ ".." ∉ names

theorem mem_candidates : p ∈ c.candidates name ↔
    ∃ d ∈ c.directories, ∃ s ∈ Format.suffixes, d.join (.ofText (name ++ s)) = p := by
  simp only [candidates, List.mem_flatMap, List.mem_map]

theorem mem_paths (hps : c.paths t = .ok ps) :
    p ∈ ps ↔ ∃ d ∈ c.directories, Definition.Stands t d p := by
  rw [paths, bind_eq_ok] at hps
  obtain ⟨pss, hpss, hps⟩ := hps
  obtain rfl := pure_eq_ok.1 hps
  have hin : ∀ d qs, pathsIn t d = .ok qs → (p ∈ qs ↔ Definition.Stands t d p) := by
    intro d qs hqs
    rw [pathsIn, bind_eq_ok] at hqs
    obtain ⟨b, hb, hqs⟩ := hqs
    obtain rfl := pure_eq_ok.1 hqs
    cases b with
    | true => exact (Definition.lists_paths hb).mem_iff p
    | false => exact (Definition.lists_nil hb).mem_iff p
  simp only [List.mem_flatten, Heap.eachOk_mem hpss]
  constructor
  · rintro ⟨qs, ⟨d, hd, hqs⟩, hp⟩
    exact ⟨d, hd, (hin d qs hqs).1 hp⟩
  · rintro ⟨d, hd, hp⟩
    obtain ⟨qs, hqs⟩ := Heap.eachOk_of_mem hpss hd
    exact ⟨qs, ⟨d, hd, hqs⟩, (hin d qs hqs).2 hp⟩

theorem exists_paths_iff : (∃ ps, c.paths t = .ok ps) ↔
    ∀ d ∈ c.directories, ∃ b, t.hasDirectory d = .ok b := by
  constructor
  · rintro ⟨ps, hps⟩ d hd
    obtain ⟨pss, hpss, -⟩ := bind_eq_ok.1 hps
    obtain ⟨qs, hqs⟩ := Heap.eachOk_of_mem hpss hd
    obtain ⟨b, hb, -⟩ := bind_eq_ok.1 hqs
    exact ⟨b, hb⟩
  · intro hall
    obtain ⟨pss, hpss⟩ := Heap.eachOk_total (f := pathsIn t) fun d hd => by
      obtain ⟨b, hb⟩ := hall d hd
      exact ⟨_, bind_eq_ok.2 ⟨b, hb, rfl⟩⟩
    exact ⟨_, bind_eq_ok.2 ⟨pss, hpss, rfl⟩⟩

theorem suffix_of_candidate (hp : p ∈ c.candidates name) :
    p.suffix ∈ Format.suffixes ↔ ∃ ch ∈ name.toList.getLast?, ch ≠ '/' := by
  obtain ⟨d, -, s, hs, rfl⟩ := mem_candidates.1 hp
  obtain ⟨names, piece, hnames, hpiece, -⟩ := FilePath.names_ofText_append name hs
  have hname : (d.join (.ofText (name ++ s))).name = .ofList (piece ++ s.toList) := by
    rw [FilePath.name, FilePath.join]
    split <;> simp [hnames, ← List.append_assoc]
  rw [FilePath.suffix_mem_iff hs hname, ne_eq, hpiece]
  push Not
  rfl

/-- Where no part of a name leads up, what is found lies below a directory of the catalog. -/
theorem below_of_plain (hup : ".." ∉ Text.split '/' name) (hp : p ∈ c.candidates name)
    (hroot : p.fromRoot = false) : c.Below p := by
  obtain ⟨d, hd, s, hs, rfl⟩ := mem_candidates.1 hp
  obtain ⟨names, piece, hnames, -, hplain⟩ := FilePath.names_ofText_append name hs
  have hq : (FilePath.ofText (name ++ s)).fromRoot = false := by
    by_cases hq : (FilePath.ofText (name ++ s)).fromRoot
    · rwa [FilePath.join, if_pos hq] at hroot
    · exact Bool.eq_false_iff.2 hq
  refine ⟨d, hd, (FilePath.ofText (name ++ s)).names, by simp [hnames], ?_, ?_⟩
  · rw [FilePath.join, hq]
    rfl
  · rw [hnames]
    exact hplain hup

/-- Looking for a definition agrees with the list of all definitions exactly if nothing is found, or
else what is found is a file, the name neither is empty nor ends in a slash, no name leads up behind
that of some directory of the catalog, and of every directory it can be said whether it is there.
What is found under a name of which no part leads up is always below a directory of the catalog. -/
theorem findsListed_iff (ht : t.Proper) :
    (c.FindsListed t name ↔ c.find? t name = .ok none ∨
      ∃ p bytes, c.find? t name = .ok (some p) ∧ t.look p = .ok (some (.file bytes)) ∧
        (∃ ch ∈ name.toList.getLast?, ch ≠ '/') ∧ c.Below p ∧
        ∀ d ∈ c.directories, ∃ b, t.hasDirectory d = .ok b) ∧
      (".." ∉ Text.split '/' name → ∀ p, c.find? t name = .ok (some p) → c.Below p) := by
  constructor
  · refine or_congr_right ⟨?_, ?_⟩
    · rintro ⟨p, ps, hfind, hps, hp⟩
      obtain ⟨hcand, hhas⟩ := Heap.findOk_eq_some hfind
      have hall := exists_paths_iff.1 ⟨ps, hps⟩
      obtain ⟨d, hd, hstands⟩ := (mem_paths hps).1 hp
      obtain ⟨⟨bytes, hlook⟩, hsuffix, hbelow⟩ :=
        (Definition.stands_iff ht hhas (hall d hd)).1 hstands
      exact ⟨p, bytes, hfind, hlook, (suffix_of_candidate hcand).1 hsuffix, ⟨d, hd, hbelow⟩, hall⟩
    · rintro ⟨p, bytes, hfind, hlook, hname, ⟨d, hd, hbelow⟩, hall⟩
      obtain ⟨hcand, hhas⟩ := Heap.findOk_eq_some hfind
      obtain ⟨ps, hps⟩ := exists_paths_iff.2 hall
      exact ⟨p, ps, hfind, hps, (mem_paths hps).2 ⟨d, hd,
        (Definition.stands_iff ht hhas (hall d hd)).2
          ⟨⟨bytes, hlook⟩, (suffix_of_candidate hcand).2 hname, hbelow⟩⟩⟩
  · intro hup p hfind
    obtain ⟨hcand, hhas⟩ := Heap.findOk_eq_some hfind
    obtain ⟨node, hnode⟩ := FileTree.has_eq_true.1 hhas
    obtain ⟨-, hlocate⟩ := FileTree.look_eq_some.1 hnode
    exact below_of_plain hup hcand (FileTree.locate_eq_ok.1 hlocate).2.1

def shelf (node : FileNode) : FileTree where
  nodes := [(["prompts"], .directory), (["prompts", "x.json"], node)]

def prompts : Catalog where
  directories := [{ names := ["prompts"] }]

theorem findsListed_file :
    (shelf (.file [])).Proper ∧ prompts.FindsListed (shelf (.file [])) "x" := by
  have ht : (shelf (.file [])).Proper := by decide
  refine ⟨ht, (findsListed_iff ht).1.2
    (.inr ⟨{ names := ["prompts", "x.json"] }, [], rfl, rfl, ⟨'x', rfl, by decide⟩, ?_, ?_⟩)⟩
  · exact ⟨_, List.mem_singleton_self _, ["x.json"], by simp, rfl, by decide⟩
  · exact List.forall_mem_singleton.2 ⟨true, rfl⟩

/-- A directory that is named as a definition is found, but it is not listed. -/
theorem not_findsListed_directory : (shelf .directory).Proper ∧
    prompts.find? (shelf .directory) "x" = .ok (some { names := ["prompts", "x.json"] }) ∧
      prompts.paths (shelf .directory) = .ok [] ∧
        ¬ prompts.FindsListed (shelf .directory) "x" := by
  have hfind : prompts.find? (shelf .directory) "x" =
      .ok (some { names := ["prompts", "x.json"] }) := rfl
  have hpaths : prompts.paths (shelf .directory) = .ok [] := by
    obtain ⟨ps, hps⟩ := (exists_paths_iff (c := prompts) (t := shelf .directory)).2
      (List.forall_mem_singleton.2 ⟨true, rfl⟩)
    have hnone : ps = [] := List.eq_nil_iff_forall_not_mem.2 fun p hp => by
      obtain ⟨d, -, -, -, place, names, bytes, -, hmem, -⟩ := (mem_paths hps).1 hp
      simp [shelf] at hmem
    rw [hps, hnone]
  refine ⟨by decide, hfind, hpaths, ?_⟩
  rintro (hnone | ⟨p, ps, hp, hps, hmem⟩)
  · cases hfind.symm.trans hnone
  · cases hpaths.symm.trans hps
    cases hmem

end Catalog

end Promptbook

import Mathlib.Data.List.Basic
import Promptbook.Files.Tree
import Promptbook.Proofs.Outcome

namespace Promptbook

namespace FileTree

variable {t : FileTree} {d p : FilePath} {place q xs ys names : List String} {node : FileNode}
  {bytes : List UInt8} {b : Bool}

/-- The places of a tree are below its root, and no name leads up. -/
def Proper (t : FileTree) : Prop :=
  ∀ e ∈ t.nodes, e.1 ≠ [] ∧ ".." ∉ e.1

instance (t : FileTree) : Decidable t.Proper :=
  inferInstanceAs (Decidable (∀ e ∈ t.nodes, e.1 ≠ [] ∧ ".." ∉ e.1))

theorem follow_append :
    t.follow place (xs ++ ys) = t.follow place xs >>= fun q => t.follow q ys := by
  induction xs generalizing place with
  | nil => rfl
  | cons name xs ih =>
    rw [List.cons_append, follow, follow]
    cases t.find? place with
    | none => rfl
    | some node =>
      cases node with
      | file bytes => rfl
      | directory =>
        simp only
        split_ifs <;> first | rfl | exact ih

theorem follow_eq_ok (hup : ".." ∉ names) (hf : t.follow place names = .ok q) :
    q = place ++ names ∧ (names ≠ [] → t.find? place = some .directory) := by
  induction names generalizing place with
  | nil =>
    cases hf
    exact ⟨(List.append_nil _).symm, fun hne => absurd rfl hne⟩
  | cons name names ih =>
    simp only [List.mem_cons, not_or] at hup
    rw [follow] at hf
    cases hn : t.find? place with
    | none =>
      rw [hn] at hf
      cases hf
    | some node =>
      cases node with
      | file bytes =>
        rw [hn] at hf
        cases hf
      | directory =>
        simp only [hn, if_neg (Ne.symm hup.1)] at hf
        split_ifs at hf
        obtain ⟨rfl, -⟩ := ih hup.2 hf
        exact ⟨by rw [List.append_assoc, List.singleton_append], fun _ => rfl⟩

theorem find?_eq_file : t.find? place = some (.file bytes) ↔
    place ≠ [] ∧ (place, .file bytes) ∈ t.nodes := by
  by_cases hplace : place = []
  · simp [find?, hplace]
  · rw [find?, if_neg (by simpa using hplace), List.lookup_eq_some_iff]
    refine ⟨fun ⟨l₁, l₂, hl, _⟩ => ⟨hplace, by simp [hl]⟩, fun ⟨_, hmem⟩ => ?_⟩
    obtain ⟨l₁, l₂, hl⟩ := List.append_of_mem hmem
    refine ⟨l₁, l₂, hl, fun e he => ?_⟩
    have hnodup := t.nodup
    rw [hl, List.map_append, List.nodup_append] at hnodup
    have hne := hnodup.2.2 _ (List.mem_map_of_mem he) _ (List.mem_map_of_mem List.mem_cons_self)
    exact bne_iff_ne.2 hne.symm

theorem locate_eq_ok : t.locate p = .ok node ↔
    p.text.utf8ByteSize ≤ pathLimit ∧ p.fromRoot = false ∧
      ∃ place, t.follow [] p.names = .ok place ∧ t.find? place = some node := by
  rw [locate]
  by_cases hlong : pathLimit < p.text.utf8ByteSize
  · rw [if_pos hlong]
    exact iff_of_false nofun fun ⟨hle, _⟩ => absurd hle (Nat.not_le.2 hlong)
  · rw [if_neg hlong, and_iff_right (Nat.not_lt.1 hlong)]
    cases hroot : p.fromRoot with
    | true => exact iff_of_false nofun fun ⟨he, _⟩ => nomatch he
    | false =>
      rw [and_iff_right rfl, if_neg Bool.false_ne_true, bind_eq_ok]
      refine exists_congr fun place => and_congr_right fun _ => ?_
      cases t.find? place <;> simp

theorem look_eq_some :
    t.look p = .ok (some node) ↔ hasNull p = false ∧ t.locate p = .ok node := by
  rw [look]
  cases hasNull p with
  | true => simp
  | false =>
    cases t.locate p with
    | ok node' => simp
    | error cause => cases cause <;> simp

theorem has_eq_true : t.has p = .ok true ↔ ∃ node, t.look p = .ok (some node) := by
  rw [has, map_eq_ok]
  constructor
  · rintro ⟨o, ho, hsome⟩
    obtain ⟨node, rfl⟩ := Option.isSome_iff_exists.1 hsome
    exact ⟨node, ho⟩
  · rintro ⟨node, hn⟩
    exact ⟨_, hn, rfl⟩

theorem hasDirectory_eq_true :
    t.hasDirectory p = .ok true ↔ t.look p = .ok (some .directory) := by
  rw [hasDirectory, map_eq_ok]
  constructor
  · rintro ⟨o, ho, hdir⟩
    rw [ho, eq_of_beq hdir]
  · intro hl
    exact ⟨_, hl, rfl⟩

theorem text_eq (hn : hasNull p = false) : t.text p =
    match t.locate p with
    | .ok (.file bytes) =>
      match Text.decodeUtf8 bytes with
      | .ok cs => .ok (Text.unifyNewlines cs)
      | .error cause => .error (.decoding cause)
    | .ok .directory => .error (.file .isDirectory p.text)
    | .error cause => .error (.file cause p.text) := by
  simp only [text, bytes, hn]
  cases t.locate p with
  | error cause => rfl
  | ok node => cases node <;> rfl

theorem hasDirectory_of_follow (hnull : hasNull d = false) (hroot : d.fromRoot = false)
    (hf : t.follow [] d.names = .ok place) (hplace : t.find? place = some .directory)
    (hd : ∃ b, t.hasDirectory d = .ok b) : t.hasDirectory d = .ok true := by
  by_cases hlong : pathLimit < d.text.utf8ByteSize
  · obtain ⟨b, hb⟩ := hd
    rw [hasDirectory, look, hnull, locate, if_pos hlong] at hb
    cases hb
  · rw [hasDirectory_eq_true, look_eq_some]
    exact ⟨hnull, locate_eq_ok.2 ⟨Nat.not_lt.1 hlong, hroot, place, hf, hplace⟩⟩

theorem text_of_file (hl : t.look p = .ok (some (.file bytes))) :
    t.text p =
      match Text.decodeUtf8 bytes with
      | .ok cs => .ok (Text.unifyNewlines cs)
      | .error cause => .error (.decoding cause) := by
  obtain ⟨hnull, hlocate⟩ := look_eq_some.1 hl
  rw [text_eq hnull, hlocate]

theorem text_of_directory (hl : t.look p = .ok (some .directory)) :
    t.text p = .error (.file .isDirectory p.text) := by
  obtain ⟨hnull, hlocate⟩ := look_eq_some.1 hl
  rw [text_eq hnull, hlocate]

theorem look_eq_error {cause : Fault} (he : t.look p = .error cause) :
    ∃ c path, cause = .file c path := by
  rw [look] at he
  split_ifs at he
  split at he <;> cases he
  exact ⟨_, _, rfl⟩

end FileTree

theorem FilePath.expand_eq_error {p home : FilePath} {cause : Fault}
    (he : p.expand home = .error cause) : cause = .noHome := by
  rw [expand] at he
  split at he
  · split_ifs at he
    exact (Except.error.inj he).symm
  · cases he

end Promptbook

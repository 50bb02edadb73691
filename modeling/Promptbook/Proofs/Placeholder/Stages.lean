import Promptbook.Proofs.Placeholder.Rescanned

namespace Promptbook

theorem lookupText_append (name : String) (es fs : List (Value × Value)) :
    lookupText name (es ++ fs) = (lookupText name es).or (lookupText name fs) := by
  rw [lookupText, List.find?_append, Option.map_or]
  rfl

namespace Heap

variable {h : Heap} {first second both values : Value} {t u path : String} {p : Piece}
  {es fs : List (Value × Value)}

/-- The value that a path leads to in the first variables or else in the second. -/
def lookupEither (h : Heap) (first second : Value) (path : String) :
    Except Fault (Option Value) := do
  match ← h.lookup path first with
  | some v => return some v
  | none => h.lookup path second

theorem fillPieces_settle (hp : ∀ path, p.path? = some path → h.Renders first path) :
    h.fillPieces second (h.settle first p) = h.fillBy (h.lookupEither first second) p := by
  cases hpath : p.path? with
  | none =>
    rw [settle_of_no_path hpath, fillPieces_singleton]
    simp only [fillPiece, fillBy, hpath]
  | some path =>
    obtain ⟨o, hl, hr⟩ := hp path hpath
    cases o with
    | none =>
      rw [settle_kept hpath (by rw [leads, hl]), fillPieces_singleton, fillPiece_eq_fillBy]
      simp only [fillBy, lookupEither, hpath, hl, ok_bind]
    | some v =>
      obtain ⟨r, hr⟩ := hr v rfl
      rw [settle_written hpath hl hr, fillPieces_letters]
      simp only [fillBy, lookupEither, hpath, hl, ok_bind, pure_bind, hr]
      rfl

theorem RendersPlain.substitute_bind (hp : h.RendersPlain first t) (second : Value)
    (hl : ∀ path ∈ placeholderPaths t, ∃ o, h.lookup path first = .ok o) :
    (h.substitute first t >>= h.substitute second) =
      h.substituteBy (h.lookupEither first second) t := by
  have hr := hp.renders hl
  have hu := substitute_eq_rewrite hr
  have hpieces : ∀ p ∈ Piece.ofChars t.toList, h.fillPieces second (h.settle first p) =
      h.fillBy (h.lookupEither first second) p :=
    fun p hmem => fillPieces_settle fun path hpath =>
      hr path (List.mem_filterMap.2 ⟨p, hmem, hpath⟩)
  rw [hu, ok_bind, substitute, hp.ofChars_substitute hu, fillPieces_flatMap, eachOk_congr hpieces,
    substituteBy]
  cases eachOk (h.fillBy (h.lookupEither first second)) (Piece.ofChars t.toList)
  all_goals rfl

/-- Two replacements come to what one with recourse to the second variables does. -/
theorem RendersPlain.substitute_bind_eq_ok (hp : h.RendersPlain first t) :
    (h.substitute first t >>= h.substitute second) = .ok u ↔
      h.substituteBy (h.lookupEither first second) t = .ok u := by
  constructor
  · intro hu
    obtain ⟨w, hw, -⟩ := bind_eq_ok.1 hu
    rwa [hp.substitute_bind second (lookup_of_substitute hw)] at hu
  · intro hu
    have hl : ∀ path ∈ placeholderPaths t, ∃ o, h.lookup path first = .ok o := by
      intro path hpath
      obtain ⟨o, ho⟩ := found_of_substituteBy hu path hpath
      exact (bind_eq_ok.1 ho).imp fun _ ho => ho.1
    rwa [hp.substitute_bind second hl]

/-- Variables put together from two others that have no name in common. -/
def Unites (h : Heap) (first second both : Value) : Prop :=
  ∃ es fs, h.mapping? first = some (.entries es) ∧ h.mapping? second = some (.entries fs) ∧
    h.mapping? both = some (.entries (es ++ fs)) ∧
    ∀ name, lookupText name es = none ∨ lookupText name fs = none

theorem Unites.lookup_eq (hu : h.Unites first second both) (path : String) :
    h.lookup path both = h.lookupEither first second path := by
  obtain ⟨es, fs, hes, hfs, hboth, hd⟩ := hu
  obtain ⟨name, names, hs⟩ := Text.exists_split_eq '.' path
  simp only [lookupEither, lookup, hs]
  rw [walk_cons hboth, walk_cons hes, walk_cons hfs, lookupText_append]
  cases hl : lookupText name es with
  | none => rfl
  | some w =>
    have hnone := (hd name).resolve_left (by rw [hl]; exact Option.some_ne_none w)
    simp only [Option.some_or, hnone]
    rcases h.walk names w with e | _ | v
    all_goals rfl

theorem Unites.substitute_eq (hu : h.Unites first second both) (t : String) :
    h.substitute both t = h.substituteBy (h.lookupEither first second) t := by
  rw [substitute_eq_substituteBy, funext hu.lookup_eq]

theorem lookupEither_self (h : Heap) (values : Value) (path : String) :
    h.lookupEither values values path = h.lookup path values := by
  unfold lookupEither
  rcases h.lookup path values with e | _ | v
  all_goals rfl

/-- Replacement from two sets of variables, one after the other, is one replacement from both; with
the same variables the second stage changes nothing. -/
theorem substitute_substitute (hp : h.RendersPlain first t) (second : Value) :
    (∀ u, (h.substitute first t >>= h.substitute second) = .ok u ↔
      h.substituteBy (h.lookupEither first second) t = .ok u) ∧
    (∀ both, h.Unites first second both → ∀ u,
      (h.substitute first t >>= h.substitute second) = .ok u ↔ h.substitute both t = .ok u) ∧
    (h.substitute first t >>= h.substitute first) = h.substitute first t := by
  refine ⟨fun u => hp.substitute_bind_eq_ok, fun both hboth u => ?_, ?_⟩
  · rw [hboth.substitute_eq]
    exact hp.substitute_bind_eq_ok
  · have hself : h.substituteBy (h.lookupEither first first) t = h.substitute first t := by
      rw [funext (h.lookupEither_self first), substitute_eq_substituteBy]
    cases hu : h.substitute first t with
    | error e => rfl
    | ok u =>
      have htwice := hp.substitute_bind first (lookup_of_substitute hu)
      rwa [hself, hu] at htwice

def staged : Heap where
  nodes := #[.dict [(.text "a", .text "1"), (.text "user", .ref ⟨1⟩)],
    .dict [(.text "name", .text "Sam")],
    .dict [(.text "b", .text "${a}"), (.text "n", .null)],
    .dict [(.text "a", .text "1"), (.text "user", .ref ⟨1⟩), (.text "b", .text "${a}"),
      (.text "n", .null)]]

def stagedText : String :=
  "${a} ${b} ${user.name} ${user.age} $${ n }${c}"

theorem unites_staged : staged.Unites (.ref ⟨0⟩) (.ref ⟨2⟩) (.ref ⟨3⟩) := by
  refine ⟨_, _, rfl, rfl, rfl, fun name => ?_⟩
  by_cases hn : name = "a" ∨ name = "user"
  · rcases hn with rfl | rfl
    all_goals exact .inr rfl
  · rw [not_or] at hn
    exact .inl (by simp [lookupText, Ne.symm hn.1, Ne.symm hn.2, Value.asText?])

theorem substitute_substitute_staged : staged.RendersPlain (.ref ⟨0⟩) stagedText ∧
    staged.Unites (.ref ⟨0⟩) (.ref ⟨2⟩) (.ref ⟨3⟩) ∧
      staged.substitute (.ref ⟨3⟩) stagedText = .ok "1 ${a} Sam ${user.age} $null${c}" ∧
      (staged.substitute (.ref ⟨0⟩) stagedText >>= staged.substitute (.ref ⟨0⟩)) =
        .ok "1 ${b} Sam ${user.age} $${ n }${c}" := by
  have hp : staged.RendersPlain (.ref ⟨0⟩) stagedText := by decide +kernel
  obtain ⟨-, hunion, hself⟩ := substitute_substitute hp (.ref ⟨2⟩)
  have htwice : (staged.substitute (.ref ⟨0⟩) stagedText >>= staged.substitute (.ref ⟨2⟩)) =
      .ok "1 ${a} Sam ${user.age} $null${c}" := by
    decide +kernel
  refine ⟨hp, unites_staged, (hunion _ unites_staged _).1 htwice, ?_⟩
  rw [hself]
  decide +kernel

end Heap

end Promptbook

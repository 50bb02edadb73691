import Promptbook.Proofs.Body.Expanded
import Promptbook.Proofs.Body.Growth
import Promptbook.Proofs.Body.Separate
import Promptbook.Proofs.Heap.Unfolding

namespace Promptbook

namespace Heap

variable {h k : Heap} {b r : Ref} {i : Nat} {s : String}

theorem Extends.timesFilled_eq (he : h.Extends k) (hc : h.Closed) (hb : h.Holds (.ref b)) :
    k.timesFilled b r i = h.timesFilled b r i := by
  rw [timesFilled, timesFilled, he.entryIndices_eq hb, he.timesEntered_eq hc hb]

end Heap

theorem exists_slot_of_placeholderPaths {s : String} (hs : placeholderPaths s ≠ []) :
    ∃ path, .slot path ∈ Piece.ofChars s.toList := by
  obtain ⟨key, hkey⟩ := List.exists_mem_of_ne_nil _ hs
  obtain ⟨p, hp, hpath⟩ := List.mem_filterMap.1 hkey
  cases p with
  | slot path => exact ⟨path, hp⟩
  | _ => cases hpath

namespace Action

variable {s : Session} {h : Heap} {p : Prompt} {values : Value} {a a' : Action Payload}
  {m : Ref → Ref} {b c : Ref} {reporting : Bool}

/-- What a payload shows at the end of a route, and the paths noted, if an action returns one. -/
def seen (ρ : List Step) (a : Action Payload) (s : Session) :
    Option (Option (Value × Option Node) × List String) :=
  match a.run.run s with
  | (.ok x, t) => some ((t.heap.follow ρ x.content).map t.heap.face, x.used)
  | _ => none

theorem SameOutcome.seen_eq (hs : SameOutcome s a a') (ρ : List Step) :
    seen ρ a s = seen ρ a' s := by
  rw [seen, seen]
  rcases ha : a.run.run s with ⟨x | x, t⟩ <;> rcases ha' : a'.run.run s with ⟨x' | x', t'⟩
  · rfl
  · obtain ⟨x, t, hrun⟩ := hs.returns.2 ⟨x', t', ha'⟩
    rw [ha] at hrun
    cases hrun
  · obtain ⟨x', t', hrun⟩ := hs.returns.1 ⟨x, t, ha⟩
    rw [ha'] at hrun
    cases hrun
  · obtain ⟨hcontent, hused⟩ := hs.same x t x' t' ha ha'
    exact congrArg some (Prod.ext (hcontent ρ) hused)

/-- If with variables that double its placeholder a text comes to the same as in the expansion, it
is filled as often. -/
theorem Expandable.timesFilled_eq (hp : Expandable h p m b c) {q : Ref} {node : Node} {i : Nat}
    {x : Value} {u : String} {path : List Char} (hq : h.Reaches (.ref c) q)
    (hn : h.get? q = some node) (hslot : node.slot? i = some x) (hu : x.asText? = some u)
    (hpath : .slot path ∈ Piece.ofChars u.toList)
    (hsame : ∀ s values, h.Extends s.heap → s.heap.Closed → s.heap.Holds values →
      SameOutcome s (resolve reporting (some p) values)
        (resolve reporting (some { p with body := .ref c }) values)) :
    h.timesFilled b (m q) i = h.timesFilled c q i := by
  obtain ⟨k, values, key, he, hk, hv, hd, hf⟩ := Heap.exists_doubles hp.closed hpath
  have hpk : Expandable ({ heap := k } : Session).heap p m b c := hp.mono he hk
  obtain ⟨⟨x, t, hrun⟩, ⟨x', t', hrun'⟩⟩ := hpk.total reporting hv hf
  obtain ⟨mb, hcontent, hfill, -⟩ := hpk.filling hv hrun
  obtain ⟨mc, hcontent', hfill', -⟩ := hpk.filling_expansion hv hrun'
  have halike := ((hsame { heap := k } values he hk hv).same x t x' t' hrun hrun').1
  rw [hcontent, hcontent', Heap.sameContent_iff hpk.expands hk hpk.holds hfill hfill'] at halike
  have hqk := (he.reaches_iff hp.closed hp.holds).2 hq
  have htimes := hd.iterate_injective hf hpath (halike q node i _ u hqk (he.keeps hn) hslot hu)
  rwa [he.timesFilled_eq hp.closed hp.holds_body, he.timesFilled_eq hp.closed hp.holds] at htimes

/-- Resolutions of a prompt do not depend on how its body shares its containers: wherever it is
expanded, and with whatever variables, the body and the expansion have the same outcome. -/
def IgnoresSharing (reporting : Bool) (h : Heap) (p : Prompt) (b : Ref) : Prop :=
  ∀ s m c values, h.Extends s.heap → s.heap.Closed → s.heap.Holds (.ref c) →
    s.heap.Expands m b c → s.heap.Holds values →
    SameOutcome s (resolve reporting (some p) values)
      (resolve reporting (some { p with body := .ref c }) values)

theorem IgnoresSharing.sole (hi : IgnoresSharing reporting h p b) (hp : Resolvable h p b) :
    h.Sole b := by
  obtain ⟨k, m, c, he, hk, hh, hx⟩ := hp.within_body.exists_expands hp.closed hp.holds_body
  have hpk : Expandable k p m b c := ⟨hp.mono he hk, hh, hx⟩
  rw [← he.sole_iff hp.closed hp.holds_body]
  apply hx.sole hk hh hpk.within_body
  intro q node i x u hq hn hslot hu hpaths
  obtain ⟨path, hpath⟩ := exists_slot_of_placeholderPaths hpaths
  exact hpk.timesFilled_eq hq hn hslot hu hpath fun s values hes hs hv =>
    hi s m c values (he.trans hes) hs (hes.holds hh) (hx.mono hes hk hh) hv

/-- Resolutions do not depend on how a body shares its containers if and only if its placeholders
have one entry each. -/
theorem ignoresSharing_iff (hp : Resolvable h p b) (reporting : Bool) :
    IgnoresSharing reporting h p b ↔ h.Sole b := by
  constructor
  · exact fun hi => hi.sole hp
  · intro hs s m c values he hk hh hx hv
    have hpk : Expandable s.heap p m b c := ⟨hp.mono he hk, hh, hx⟩
    exact hpk.sameOutcome hv ((he.sole_iff hp.closed hp.holds_body).2 hs)

def pairedHeap : Heap where
  nodes := #[
    .dict [(.text "task", .text "Do ${x}"), (.text "instructions", .text "Use ${x}"),
      (.text "context", .ref ⟨1⟩), (.text "output_format", .ref ⟨3⟩)],
    .dict [(.text "first", .ref ⟨2⟩), (.text "again", .ref ⟨2⟩)],
    .list [.text "${x} and ${y}"],
    .dict []]

def pairedPrompt : Prompt := { loopedPrompt with id := .text "paired", name := .text "paired" }

theorem pairedPrompt_resolvable : Resolvable pairedHeap pairedPrompt ⟨0⟩ where
  closed := by decide
  stored := ⟨by decide, by decide, fun _ hm => by cases hm⟩
  plain := ⟨⟨"paired", Heap.text_text _ _⟩, fun _ hm => by cases hm⟩
  body := rfl
  accepts := ⟨_, rfl, rfl⟩
  within := by
    have hw : pairedHeap.Within 4 (.ref ⟨0⟩) := by decide
    have hle : 4 ≤ pairedHeap.depths.resolve := by decide
    exact hw.mono hle
  copyable := .of_elements (by decide)

theorem ignoresSharing_paired : IgnoresSharing false pairedHeap pairedPrompt ⟨0⟩ := by
  have hw : pairedHeap.Within 4 (.ref ⟨0⟩) := by decide
  exact (ignoresSharing_iff pairedPrompt_resolvable false).2 (hw.sole_iff.2 (by decide +kernel))

/-- The places of a body whose context is its output format, of the body with two dictionaries, and
of variables in which one leads to a placeholder for the other. -/
def mergedHeap : Heap where
  nodes := #[
    .dict [(.text "task", .text "Do it"), (.text "instructions", .text "Use it"),
      (.text "context", .ref ⟨1⟩), (.text "output_format", .ref ⟨1⟩)],
    .dict [(.text "a", .text "${x}")],
    .dict [(.text "task", .text "Do it"), (.text "instructions", .text "Use it"),
      (.text "context", .ref ⟨3⟩), (.text "output_format", .ref ⟨4⟩)],
    .dict [(.text "a", .text "${x}")],
    .dict [(.text "a", .text "${x}")],
    .dict [(.text "x", .text "${y}"), (.text "y", .text "boom")]]

def mergedOrigin (r : Ref) : Ref :=
  if r.index ≤ 3 then ⟨r.index - 2⟩ else ⟨1⟩

def mergedPrompt : Prompt := { loopedPrompt with id := .text "merged", name := .text "merged" }

def mergedSession : Session := { heap := mergedHeap }

theorem mergedPrompt_resolvable : Resolvable mergedHeap mergedPrompt ⟨0⟩ where
  closed := by decide
  stored := ⟨by decide, by decide, fun _ hm => by cases hm⟩
  plain := ⟨⟨"merged", Heap.text_text _ _⟩, fun _ hm => by cases hm⟩
  body := rfl
  accepts := ⟨_, rfl, rfl⟩
  within := by
    have hw : mergedHeap.Within 3 (.ref ⟨0⟩) := by decide
    have hle : 3 ≤ mergedHeap.depths.resolve := by decide
    exact hw.mono hle
  copyable := .of_elements (by decide)

theorem mergedHeap_expands : mergedHeap.Expands mergedOrigin ⟨0⟩ ⟨2⟩ := by
  have hw : mergedHeap.Within 3 (.ref ⟨2⟩) := by decide
  exact hw.expands_iff.2 (by decide)

theorem seen_merged : seen [.slot 2, .slot 0] (resolve false (some mergedPrompt) (.ref ⟨5⟩))
    mergedSession = some (some (.text "boom", none), ["x", "y"]) := by
  decide +kernel

theorem seen_unmerged : seen [.slot 2, .slot 0]
    (resolve false (some { mergedPrompt with body := .ref ⟨2⟩ }) (.ref ⟨5⟩)) mergedSession =
      some (some (.text "${y}", none), ["x"]) := by
  decide +kernel

/-- A dictionary that is both the context and the output format is filled twice, so a placeholder
that came with a replacement is replaced, too. -/
theorem not_ignoresSharing_merged : Resolvable mergedHeap mergedPrompt ⟨0⟩ ∧
    ¬ IgnoresSharing false mergedHeap mergedPrompt ⟨0⟩ := by
  refine ⟨mergedPrompt_resolvable, fun hi => ?_⟩
  have hseen := (hi mergedSession mergedOrigin ⟨2⟩ (.ref ⟨5⟩) (.refl mergedHeap)
    mergedPrompt_resolvable.closed (by decide) mergedHeap_expands (by decide)).seen_eq
    [.slot 2, .slot 0]
  rw [seen_merged, seen_unmerged] at hseen
  exact absurd hseen (by decide)

end Action

end Promptbook

import Promptbook.Proofs.Body.Contents
import Promptbook.Proofs.Body.Texts

namespace Promptbook

/-- A place of the container that a walk fills holds a text with a placeholder. -/
def Node.HasPlaceholder (node : Node) : Prop :=
  ∃ x ∈ node.slots, ∃ s, x.asText? = some s ∧ placeholderPaths s ≠ []

instance (node : Node) : Decidable node.HasPlaceholder :=
  decidable_of_iff (∃ x ∈ node.slots, ∃ s ∈ x.asText?, placeholderPaths s ≠ []) (by
    simp [Node.HasPlaceholder])

namespace Step

variable {ρ : List Step} {i : Nat} {is : List Nat}

def slots? : List Step → Option (List Nat)
  | [] => some []
  | slot i :: ρ => (slots? ρ).map (i :: ·)
  | hidden _ :: _ => none

theorem slots?_eq_some : slots? ρ = some is ↔ ρ = is.map .slot := by
  induction ρ generalizing is with
  | nil => cases is <;> simp [slots?]
  | cons st ρ ih =>
    cases st with
    | slot i => cases is <;> simp [slots?, ih, and_comm]
    | hidden i => cases is <;> simp [slots?]

def entryOf? (ρ : List Step) : Option Nat :=
  (slots? ρ).bind List.head?

theorem entryOf?_eq_some : entryOf? ρ = some i ↔ ∃ is : List Nat, ρ = (i :: is).map .slot := by
  rw [entryOf?, Option.bind_eq_some_iff]
  constructor
  · rintro ⟨is, his, hi⟩
    obtain ⟨is, rfl⟩ := List.head?_eq_some_iff.1 hi
    exact ⟨is, slots?_eq_some.1 his⟩
  · rintro ⟨is, rfl⟩
    exact ⟨i :: is, slots?_eq_some.2 rfl, rfl⟩

end Step

namespace Heap

variable {h : Heap} {values x : Value} {m : Ref → Ref} {b c q r : Ref} {node : Node} {i j n : Nat}
  {ρ σ : List Step} {s : String}

/-- A list or dictionary with a placeholder that is entered from an entry that is filled has no
other routes to it than from this entry, through lists and values of dictionaries. -/
def Sole (h : Heap) (b : Ref) : Prop :=
  ∀ i ∈ Walk.entryIndices h b, ∀ r node, h.EntersBy b i r → h.open? r = some node →
    node.HasPlaceholder → ∀ ρ, h.follow ρ (.ref b) = some (.ref r) →
      ∃ is : List Nat, ρ = (i :: is).map .slot

/-- Of a body below its limit it can be found out whether its placeholders have one entry each. -/
theorem Within.sole_iff (hw : h.Within n (.ref b)) : h.Sole b ↔
    ∀ e ∈ h.routes n (.ref b), ∀ e' ∈ h.routes n (.ref b), e.2 = e'.2 → ∀ r ∈ e.2.asRef?,
      ∀ node ∈ h.open? r, node.HasPlaceholder → ∀ i ∈ Step.entryOf? e.1,
        i ∈ Walk.entryIndices h b → Step.entryOf? e'.1 = some i := by
  constructor
  · rintro hs ⟨ρ, v⟩ he ⟨σ, _⟩ he' ⟨⟩ r hr node hn hp i hi hmem
    obtain rfl := Value.asRef?_eq_some.1 hr
    obtain ⟨is, rfl⟩ := Step.entryOf?_eq_some.1 hi
    exact Step.entryOf?_eq_some.2
      (hs i hmem r node ⟨is, hw.mem_routes.1 he⟩ hn hp σ (hw.mem_routes.1 he'))
  · rintro hs i hmem r node ⟨is, his⟩ hn hp ρ hρ
    exact Step.entryOf?_eq_some.1 (hs _ (hw.mem_routes.2 his) _ (hw.mem_routes.2 hρ) rfl r rfl
      node hn hp i (Step.entryOf?_eq_some.2 ⟨is, rfl⟩) hmem)

theorem hasPlaceholder_map (m : Ref → Ref) (node : Node) :
    (node.map m).HasPlaceholder ↔ node.HasPlaceholder := by
  simp [Node.HasPlaceholder]

theorem Sole.eq_of_enters (hs : h.Sole b) (hi : i ∈ Walk.entryIndices h b)
    (hir : h.EntersBy b i r) (hjr : h.EntersBy b j r) (hn : h.open? r = some node)
    (hp : node.HasPlaceholder) : i = j := by
  obtain ⟨js, hj⟩ := hjr
  obtain ⟨is, he⟩ := hs i hi r node hir hn hp _ hj
  rw [List.map_cons, List.map_cons, List.cons.injEq, Step.slot.injEq] at he
  exact he.1.symm

theorem Sole.once (hs : h.Sole b) : h.Once b (Walk.entryIndices h b) := by
  intro i hi j _ hij r node hir hjr hn x hx s ht
  by_contra hp
  exact hij (hs.eq_of_enters hi hir hjr hn ⟨x, hx, s, ht, hp⟩)

namespace Expands

variable (hx : h.Expands m b c) (hc : h.Closed) (hh : h.Holds (.ref c)) (hw : h.Within n (.ref b))

section
include hx

theorem eq_of_enters (hi : h.EntersBy c i q) (hj : h.EntersBy c j q) (hn : h.open? q = some node) :
    i = j := by
  obtain ⟨is, hi⟩ := hi
  obtain ⟨js, hj⟩ := hj
  have he := hx.unshared _ _ q node hi hj hn
  rw [List.map_cons, List.map_cons, List.cons.injEq, Step.slot.injEq] at he
  exact he.1

theorem once (is : List Nat) : h.Once c is :=
  fun _ _ _ _ hij _ _ hir hjr hn => absurd (hx.eq_of_enters hir hjr hn) hij

include hc hh

theorem entersBy_image (hi : h.EntersBy c i q) : h.EntersBy b i (m q) := by
  obtain ⟨is, hi⟩ := hi
  exact ⟨is, hx.follow_of_exists hc hh hi⟩

theorem entryIndices_eq : Walk.entryIndices h b = Walk.entryIndices h c := by
  have hroot := hx.get?_image hc hh (.refl h c)
  rw [hx.root] at hroot
  rw [Walk.entryIndices, Walk.entryIndices, hroot]
  cases h.get? c with
  | none => rfl
  | some node =>
    cases node with
    | dict es =>
      simp only [Option.map_some, Node.map, List.length_map]
      apply List.filter_congr
      intro i _
      rw [List.getElem?_map]
      cases es[i]? with
      | none => rfl
      | some e => simp only [Option.map_some, Option.bind_some, Value.asText?_map]
    | _ => rfl

end

include hx hc hh hw

theorem image_eq_root (hq : h.Reaches (.ref c) q) : m q = b ↔ q = c := by
  constructor
  · obtain ⟨σ, hσ⟩ := hq
    intro he
    have hσ' := hx.follow_of_exists hc hh hσ
    rw [he] at hσ'
    cases σ with
    | nil => exact (Value.ref.inj (Option.some.inj hσ)).symm
    | cons st σ => exact absurd hσ' hw.acyclic
  · intro heq
    subst heq
    exact hx.root

/-- Where placeholders have one entry each, a place with one is filled as often as in the
expansion. -/
theorem timesFilled_eq (hs : h.Sole b) (hq : h.Reaches (.ref c) q) (hn : h.open? q = some node)
    (hp : node.HasPlaceholder) (i : Nat) : h.timesFilled b (m q) i = h.timesFilled c q i := by
  have hidx := hx.entryIndices_eq hc hh
  have hopen : h.open? (m q) = some (node.map m) := by
    rw [hx.open?_image hc hh hq, hn, Option.map_some]
  have hp' := (hasPlaceholder_map m node).2 hp
  by_cases hqc : q = c
  · have hroot := (hx.image_eq_root hc hh hw hq).2 hqc
    rw [timesFilled, timesFilled, if_pos hroot, if_pos hqc, hidx]
  · have hroot : m q ≠ b := fun he => hqc ((hx.image_eq_root hc hh hw hq).1 he)
    rw [timesFilled, timesFilled, if_neg hroot, if_neg hqc, hidx]
    have hle := timesEntered_le_one (Walk.nodup_entryIndices h c) fun i _ j _ hi hj =>
      hx.eq_of_enters (i := i) (j := j) hi hj hn
    have hle' := timesEntered_le_one (hidx ▸ Walk.nodup_entryIndices h b) fun i hi j _ hir hjr =>
      hs.eq_of_enters (i := i) (j := j) (hidx ▸ hi) hir hjr hopen hp'
    have hpos : 0 < h.timesEntered b (Walk.entryIndices h c) (m q) ↔
        0 < h.timesEntered c (Walk.entryIndices h c) q := by
      rw [timesEntered_pos_iff, timesEntered_pos_iff]
      constructor
      · rintro ⟨j, hj, hjr⟩
        obtain ⟨σ, hσ⟩ := hq
        obtain ⟨js, rfl⟩ := hs j (hidx ▸ hj) (m q) _ hjr hopen hp' σ (hx.follow_of_exists hc hh hσ)
        exact ⟨j, hj, js, hσ⟩
      · rintro ⟨j, hj, hjr⟩
        exact ⟨j, hj, hx.entersBy_image hc hh hjr⟩
    omega

/-- If every place with a placeholder is filled as often as in the expansion, placeholders have one
entry each. -/
theorem sole (ht : ∀ q node i x s, h.Reaches (.ref c) q → h.get? q = some node →
    node.slot? i = some x → x.asText? = some s → placeholderPaths s ≠ [] →
    h.timesFilled b (m q) i = h.timesFilled c q i) : h.Sole b := by
  intro i hi r node hir hn hp ρ hρ
  have hidx := hx.entryIndices_eq hc hh
  have hne : ∀ q, h.Reaches (.ref c) q → m q = r → q ≠ c := by
    intro q hq he heq
    subst heq
    obtain ⟨is, his⟩ := hir
    rw [← he, hx.root] at his
    exact hw.acyclic his
  -- of each copy of the container: it is entered as often as the container
  have hcopy : ∀ q, h.Reaches (.ref c) q → m q = r → h.timesEntered b (Walk.entryIndices h b) r =
      h.timesEntered c (Walk.entryIndices h b) q ∧
        h.timesEntered c (Walk.entryIndices h b) q ≤ 1 ∧ ∃ node, h.open? q = some node := by
    intro q hq heq
    subst heq
    have hopen := hx.open?_image hc hh hq
    rw [hn] at hopen
    obtain ⟨old, hold, rfl⟩ := Option.map_eq_some_iff.1 hopen.symm
    rw [hasPlaceholder_map] at hp
    obtain ⟨x, hmem, s, hs, hpaths⟩ := hp
    obtain ⟨l, hl⟩ := Node.mem_slots.1 hmem
    have htimes := ht q old l x s hq (open?_eq_some.1 hold).1 hl hs hpaths
    rw [timesFilled, timesFilled, if_neg (hne q hq rfl),
      if_neg fun he => hne q hq rfl ((hx.image_eq_root hc hh hw hq).1 he), ← hidx] at htimes
    exact ⟨htimes, timesEntered_le_one (Walk.nodup_entryIndices h b) fun i _ j _ hi hj =>
      hx.eq_of_enters hi hj hold, old, hold⟩
  have hpos : 0 < h.timesEntered b (Walk.entryIndices h b) r :=
    timesEntered_pos_iff.2 ⟨i, hi, hir⟩
  obtain ⟨q, hq, hρ'⟩ := hx.exists_of_follow hc hh hρ
  obtain ⟨htimes, hle, old, hold⟩ := hcopy q ⟨ρ, hρ'⟩ hq
  have hone : h.timesEntered b (Walk.entryIndices h b) r = 1 := by omega
  obtain ⟨j, hj, js, hjs⟩ := timesEntered_pos_iff.1 (htimes ▸ hpos)
  have hjr := hx.entersBy_image hc hh ⟨js, hjs⟩
  rw [hq] at hjr
  obtain rfl := entersBy_unique hone hi hj hir hjr
  exact ⟨js, hx.unshared _ _ q old hρ' hjs hold⟩

theorem filledAlike (hs : h.Sole b) : h.FilledAlike values m b c := by
  intro q node i x s hq hn hslot ht
  by_cases hp : placeholderPaths s = []
  · rw [Function.iterate_fixed (filled_eq_self hp), Function.iterate_fixed (filled_eq_self hp)]
  · have hopen : h.open? q = some node := open?_eq_some.2 ⟨hn, Node.isOpen_of_slot? hslot⟩
    rw [hx.timesFilled_eq hc hh hw hs hq hopen ⟨x, Node.mem_slots.2 ⟨i, hslot⟩, s, ht, hp⟩]

end Expands

end Heap

end Promptbook

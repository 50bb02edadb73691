import Promptbook.Proofs.Body.Walk
import Promptbook.Proofs.Heap.Expansion

namespace Promptbook

namespace Walk

variable {used ps : List String} {p : String}

theorem mem_addNew : p ∈ addNew used ps ↔ p ∈ used ∨ p ∈ ps := by
  induction ps generalizing used with
  | nil => simp [addNew]
  | cons q ps ih =>
    rw [addNew, ih, List.mem_cons]
    split
    · next hq =>
      constructor
      · rintro (hp | hp)
        · exact .inl hp
        · exact .inr (.inr hp)
      · rintro (hp | rfl | hp)
        · exact .inl hp
        · exact .inl hq
        · exact .inr hp
    · rw [List.mem_append, List.mem_singleton, or_assoc]

theorem addNew_of_subset (hp : ∀ p ∈ ps, p ∈ used) : addNew used ps = used := by
  induction ps generalizing used with
  | nil => rfl
  | cons q ps ih =>
    rw [List.forall_mem_cons] at hp
    rw [addNew, if_pos hp.1, ih hp.2]

end Walk

namespace Heap

open Walk (addNew)

variable {h : Heap} {m : Ref → Ref} {v x : Value} {vs : List Value} {b c r : Ref} {node : Node}
  {n : Nat} {s t : String} {seen : List Ref} {used : List String}

/-- The texts met on a walk that enters a container by every route to it. `n` bounds the depth. -/
def unroll (h : Heap) : Nat → Value → List String
  | 0, _ => []
  | n + 1, v =>
    match v.asText? with
    | some s => [s]
    | none =>
      match v.asRef?.bind h.open? with
      | none => []
      | some node => node.slots.flatMap (h.unroll n)

theorem unroll_text (hv : v.asText? = some s) : h.unroll (n + 1) v = [s] := by
  rw [unroll, hv]

theorem unroll_ref (hn : h.open? r = some node) :
    h.unroll (n + 1) (.ref r) = node.slots.flatMap (h.unroll n) := by
  simp only [unroll, Value.asText?_ref, Value.asRef?, Option.bind_some, hn]

theorem unroll_shut (hv : v.asText? = none) (hn : v.asRef?.bind h.open? = none) :
    h.unroll (n + 1) v = [] := by
  simp only [unroll, hv, hn]

theorem Within.slot (hw : h.Within (n + 1) (.ref r)) (hn : h.open? r = some node)
    (hx : x ∈ node.slots) : h.Within n x := by
  obtain ⟨i, hi⟩ := Node.mem_slots.1 hx
  exact hw r node rfl (open?_eq_some.1 hn).1 x (Node.mem_elements.2 ⟨.slot i, hi⟩)

theorem Within.not_enters (hw : h.Within n (.ref r)) (hn : h.open? r = some node)
    (hx : x ∈ node.slots) : ¬ h.Enters x r := by
  rintro ⟨is, hi⟩
  obtain ⟨i, hx⟩ := Node.mem_slots.1 hx
  have hstep : node.step? (.slot i) = some x := hx
  exact hw.acyclic (follow_cons_eq_some.2 ⟨r, node, x, rfl, (open?_eq_some.1 hn).1, hstep, hi⟩)

theorem Meets.of_enters (hr : h.Enters v r) (hs : h.Meets (.ref r) s) : h.Meets v s := by
  obtain ⟨is, hi⟩ := hr
  obtain ⟨js, y, hy, hs⟩ := hs
  exact ⟨is ++ js, y, by rw [List.map_append, follow_append, hi]; exact hy, hs⟩

theorem meets_of_mem_unroll (hs : s ∈ h.unroll n v) : h.Meets v s := by
  induction n generalizing v with
  | zero => cases hs
  | succ n ih =>
    cases hv : v.asText? with
    | some t =>
      rw [unroll_text hv, List.mem_singleton] at hs
      exact .here (hs ▸ hv)
    | none =>
      cases hn : v.asRef?.bind h.open? with
      | none =>
        rw [unroll_shut hv hn] at hs
        cases hs
      | some node =>
        obtain ⟨r, hr, hopen⟩ := Option.bind_eq_some_iff.1 hn
        obtain rfl := Value.asRef?_eq_some.1 hr
        rw [unroll_ref hopen] at hs
        obtain ⟨x, hx, hs⟩ := List.mem_flatMap.1 hs
        obtain ⟨i, hi⟩ := Node.mem_slots.1 hx
        exact .head (open?_eq_some.1 hopen).1 hi (ih hs)

theorem mem_unroll (hw : h.Within n v) (hs : h.Meets v s) : s ∈ h.unroll n v := by
  induction n generalizing v with
  | zero => exact hw.elim
  | succ n ih =>
    obtain ⟨is, y, hy, hs⟩ := hs
    cases is with
    | nil =>
      cases hy
      rw [unroll_text hs]
      exact List.mem_singleton_self s
    | cons i is =>
      obtain ⟨r, node, u, rfl, hr, hu, hy⟩ := follow_cons_eq_some.1 hy
      have hn : h.open? r = some node := open?_eq_some.2 ⟨hr, Node.isOpen_of_slot? hu⟩
      have hmem : u ∈ node.slots := Node.mem_slots.2 ⟨i, hu⟩
      rw [unroll_ref hn]
      exact List.mem_flatMap.2 ⟨u, hmem, ih (hw.slot hn hmem) ⟨is, y, hy, hs⟩⟩

def Noted (h : Heap) (seen : List Ref) (used : List String) (v : Value) : Prop :=
  ∀ r ∈ seen, h.Enters v r → ∀ s, h.Meets (.ref r) s → ∀ p ∈ placeholderPaths s, p ∈ used

theorem Noted.grow {ps : List String} (hn : h.Noted seen used v) :
    h.Noted seen (addNew used ps) v :=
  fun r hr hv s hs p hp => Walk.mem_addNew.2 (.inl (hn r hr hv s hs p hp))

/-- A walk from several values notes what walks by every route would if one from each of them
does. -/
theorem note_tour_list (hseen : ∀ v ∈ vs, h.Noted seen used v) (hw : ∀ v ∈ vs, h.Within n v)
    (hone : ∀ v ∈ vs, ∀ seen used, h.Noted seen used v →
      addNew used ((h.tour seen [v]).flatMap placeholderPaths) =
        addNew used ((h.unroll n v).flatMap placeholderPaths)) :
    addNew used ((h.tour seen vs).flatMap placeholderPaths) =
      addNew used ((vs.flatMap (h.unroll n)).flatMap placeholderPaths) := by
  induction vs generalizing seen used with
  | nil => simp only [tour_nil, List.flatMap_nil]
  | cons v vs ih =>
    rw [List.forall_mem_cons] at hseen hw hone
    obtain ⟨seen', hseen', htour⟩ := exists_tour_append (h := h) seen [v]
    have htour : h.tour seen (v :: vs) = h.tour seen [v] ++ h.tour seen' vs := htour vs
    rw [htour, List.flatMap_append, Walk.addNew_append, hone.1 seen used hseen.1,
      List.flatMap_cons, List.flatMap_append, Walk.addNew_append]
    refine ih (fun w hmem r hr hwr s hs p hp => ?_) hw.2 hone.2
    rcases hseen' r hr with hr | ⟨u, hu, node, hur, -⟩
    · exact (hseen.2 w hmem).grow r hr hwr s hs p hp
    · obtain rfl := List.mem_singleton.1 hu
      have ht := mem_unroll hw.1 (hs.of_enters hur)
      exact Walk.mem_addNew.2 (.inr (List.mem_flatMap.2 ⟨s, ht, hp⟩))

theorem note_tour (hw : h.Within n v) (hseen : h.Noted seen used v) :
    addNew used ((h.tour seen [v]).flatMap placeholderPaths) =
      addNew used ((h.unroll n v).flatMap placeholderPaths) := by
  induction n generalizing v seen used with
  | zero => exact hw.elim
  | succ n ih =>
    cases hv : v.asText? with
    | some s => rw [tour_text hv, tour_nil, unroll_text hv]
    | none =>
      cases hn : v.asRef?.bind h.open? with
      | none =>
        have hu : h.unseen? seen v = none := by
          rw [Option.eq_none_iff_forall_ne_some]
          rintro ⟨r, node⟩ hu
          obtain ⟨rfl, -, hopen⟩ := unseen?_eq_some.1 hu
          rw [Value.asRef?, Option.bind_some, hopen] at hn
          cases hn
        rw [tour_skip hv hu, tour_nil, unroll_shut hv hn]
      | some node =>
        obtain ⟨r, hr, hopen⟩ := Option.bind_eq_some_iff.1 hn
        obtain rfl := Value.asRef?_eq_some.1 hr
        by_cases hin : r ∈ seen
        · -- all that lies in the container was noted when it was entered
          have hu : h.unseen? seen (.ref r) = none := by
            simp only [unseen?, Value.asRef?, Option.bind_some, hin, ↓reduceIte]
          have hold : ∀ p ∈ (h.unroll (n + 1) (.ref r)).flatMap placeholderPaths, p ∈ used := by
            intro p hp
            obtain ⟨s, hs, hp⟩ := List.mem_flatMap.1 hp
            exact hseen r hin (.refl h r) s (meets_of_mem_unroll hs) p hp
          rw [tour_skip rfl hu, tour_nil, Walk.addNew_of_subset hold]
          rfl
        · rw [tour_enter hin hopen, List.append_nil, unroll_ref hopen]
          have hsame : h.tour (r :: seen) node.slots = h.tour seen node.slots := by
            apply tour_congr
            intro x hx q _ hq _
            rw [List.mem_cons]
            apply or_iff_right
            intro heq
            subst heq
            exact hw.not_enters hopen hx hq
          rw [hsame]
          refine note_tour_list (fun x hx q hq hxq => ?_) (fun x hx => hw.slot hopen hx)
            fun x hx seen used hseen => ih (hw.slot hopen hx) hseen
          obtain ⟨i, hi⟩ := Node.mem_slots.1 hx
          exact hseen q hq (hxq.head (open?_eq_some.1 hopen).1 hi)

theorem Expands.unroll_eq (hx : h.Expands m b c) (hc : h.Closed) (hh : h.Holds (.ref c))
    (hv : ∀ r, v = .ref r → h.Reaches (.ref c) r) : h.unroll n (v.map m) = h.unroll n v := by
  induction n generalizing v with
  | zero => rfl
  | succ n ih =>
    cases hs : v.asText? with
    | some s => rw [unroll_text hs, unroll_text ((Value.asText?_map m v).trans hs)]
    | none =>
      cases hr : v.asRef? with
      | none =>
        have hvm : v.map m = v := Value.map_eq_self fun r he => by
          rw [he] at hr
          cases hr
        rw [hvm]
      | some r =>
        obtain rfl := Value.asRef?_eq_some.1 hr
        have hreach := hv r rfl
        have himage := hx.open?_image hc hh hreach
        cases hn : h.open? r with
        | none =>
          rw [hn] at himage
          rw [unroll_shut (v := .ref r) rfl hn]
          exact unroll_shut (v := .ref (m r)) rfl himage
        | some node =>
          rw [hn] at himage
          rw [unroll_ref hn, Value.map_ref, unroll_ref himage, Node.slots_map, List.flatMap_map]
          refine List.flatMap_congr fun x hmem => ih ?_
          obtain ⟨i, hi⟩ := Node.mem_slots.1 hmem
          exact Expands.reaches_slot hreach (open?_eq_some.1 hn).1 hi

end Heap

end Promptbook

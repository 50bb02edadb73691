import Promptbook.Proofs.Body.Slots
import Mathlib.Data.Finset.Card
import Mathlib.Data.Finset.SDiff
import Mathlib.Data.Finset.Insert

namespace Promptbook.Heap

/-- The list or dictionary that a value leads to, with its place, unless it was seen. -/
def unseen? (h : Heap) (seen : List Ref) (v : Value) : Option (Ref × Node) :=
  v.asRef?.bind fun r => if r ∈ seen then none else (h.open? r).map fun node => (r, node)

def unseenCount (h : Heap) (seen : List Ref) : Nat :=
  (Finset.range h.nodes.size \ (seen.map Ref.index).toFinset).card

variable {h k : Heap} {seen : List Ref} {v w x : Value} {vs ws : List Value} {r q : Ref}
  {node : Node} {s : String}

theorem unseen?_eq_some : h.unseen? seen v = some (r, node) ↔
    v = .ref r ∧ r ∉ seen ∧ h.open? r = some node := by
  simp only [unseen?, Option.bind_eq_some_iff, Value.asRef?_eq_some]
  constructor
  · rintro ⟨q, rfl, hq⟩
    by_cases hs : q ∈ seen
    · rw [if_pos hs] at hq
      cases hq
    · rw [if_neg hs] at hq
      obtain ⟨n, hn, heq⟩ := Option.map_eq_some_iff.1 hq
      cases heq
      exact ⟨rfl, hs, hn⟩
  · rintro ⟨rfl, hs, hn⟩
    exact ⟨r, rfl, by rw [if_neg hs, hn]; rfl⟩

theorem unseenCount_cons_lt (hr : h.unseen? seen v = some (r, node)) :
    h.unseenCount (r :: seen) < h.unseenCount seen := by
  obtain ⟨-, hs, hn⟩ := unseen?_eq_some.1 hr
  obtain ⟨hlt, -⟩ := Array.getElem?_eq_some_iff.1 (open?_eq_some.1 hn).1
  have hmem : r.index ∈ Finset.range h.nodes.size \ (seen.map Ref.index).toFinset := by
    refine Finset.mem_sdiff.2 ⟨Finset.mem_range.2 hlt, fun hin => hs ?_⟩
    obtain ⟨q, hq, he⟩ := List.mem_map.1 (List.mem_toFinset.1 hin)
    cases q
    cases r
    cases he
    exact hq
  simp only [unseenCount, List.map_cons, List.toFinset_cons]
  rw [Finset.sdiff_insert]
  exact Finset.card_erase_lt_of_mem hmem

/-- The texts met on a depth-first walk from some values, through the items of lists and the values
of dictionaries. No container is entered that was seen before. -/
def tour (h : Heap) (seen : List Ref) : List Value → List String
  | [] => []
  | v :: vs =>
    match v.asText? with
    | some s => s :: h.tour seen vs
    | none =>
      match _hr : h.unseen? seen v with
      | none => h.tour seen vs
      | some (r, node) => h.tour (r :: seen) (node.slots ++ vs)
  termination_by vs => (h.unseenCount seen, vs.length)
  decreasing_by
    · exact .right _ (Nat.lt_succ_self _)
    · exact .right _ (Nat.lt_succ_self _)
    · exact .left _ _ (unseenCount_cons_lt _hr)

@[simp] theorem tour_nil (h : Heap) (seen : List Ref) : h.tour seen [] = [] := by
  rw [tour]

theorem tour_text (hv : v.asText? = some s) : h.tour seen (v :: vs) = s :: h.tour seen vs := by
  rw [tour, hv]

theorem tour_skip (hv : v.asText? = none) (hr : h.unseen? seen v = none) :
    h.tour seen (v :: vs) = h.tour seen vs := by
  rw [tour, hv]
  simp only []
  split
  · rfl
  · rename_i heq
    rw [hr] at heq
    cases heq

theorem tour_enter (hr : r ∉ seen) (hn : h.open? r = some node) :
    h.tour seen (.ref r :: vs) = h.tour (r :: seen) (node.slots ++ vs) := by
  have hu : h.unseen? seen (.ref r) = some (r, node) := unseen?_eq_some.2 ⟨rfl, hr, hn⟩
  rw [tour, Value.asText?_ref]
  simp only []
  split
  · rename_i heq
    rw [hu] at heq
    cases heq
  · rename_i heq
    rw [hu] at heq
    cases heq
    rfl

theorem exists_tour_append (seen : List Ref) (vs : List Value) : ∃ seen',
    (∀ r ∈ seen', r ∈ seen ∨ ∃ v ∈ vs, ∃ node, h.Enters v r ∧ h.open? r = some node) ∧
    ∀ ws, h.tour seen (vs ++ ws) = h.tour seen vs ++ h.tour seen' ws := by
  fun_induction tour h seen vs with
  | case1 seen => exact ⟨seen, fun r hr => .inl hr, fun ws => rfl⟩
  | case2 seen v vs s hs ih =>
    obtain ⟨seen', hseen', htour⟩ := ih
    refine ⟨seen', fun r hr => ?_, fun ws => ?_⟩
    · rcases hseen' r hr with hr | ⟨x, hx, he⟩
      · exact .inl hr
      · exact .inr ⟨x, List.mem_cons_of_mem v hx, he⟩
    · rw [List.cons_append, tour_text hs, htour ws, List.cons_append]
  | case3 seen v vs hs hr ih =>
    obtain ⟨seen', hseen', htour⟩ := ih
    refine ⟨seen', fun r hr => ?_, fun ws => ?_⟩
    · rcases hseen' r hr with hr | ⟨x, hx, he⟩
      · exact .inl hr
      · exact .inr ⟨x, List.mem_cons_of_mem v hx, he⟩
    · rw [List.cons_append, tour_skip hs hr, htour ws]
  | case4 seen v vs hs r node hr ih =>
    obtain ⟨rfl, hrseen, hn⟩ := unseen?_eq_some.1 hr
    obtain ⟨seen', hseen', htour⟩ := ih
    refine ⟨seen', fun q hq => ?_, fun ws => ?_⟩
    · rcases hseen' q hq with hq | ⟨x, hx, n, he, hn'⟩
      · rcases List.mem_cons.1 hq with rfl | hq
        · exact .inr ⟨.ref q, List.mem_cons_self, node, .refl h q, hn⟩
        · exact .inl hq
      · rcases List.mem_append.1 hx with hx | hx
        · obtain ⟨i, hi⟩ := Node.mem_slots.1 hx
          exact .inr ⟨.ref r, List.mem_cons_self, n, he.head (open?_eq_some.1 hn).1 hi, hn'⟩
        · exact .inr ⟨x, List.mem_cons_of_mem _ hx, n, he, hn'⟩
    · rw [List.cons_append, tour_enter hrseen hn, ← List.append_assoc, htour ws]

theorem tour_congr {seen' : List Ref}
    (hs : ∀ v ∈ vs, ∀ r node, h.Enters v r → h.open? r = some node → (r ∈ seen ↔ r ∈ seen')) :
    h.tour seen vs = h.tour seen' vs := by
  fun_induction tour h seen vs generalizing seen' with
  | case1 seen => rw [tour_nil]
  | case2 seen v vs s hv ih =>
    rw [tour_text hv, ih fun x hx => hs x (List.mem_cons_of_mem v hx)]
  | case3 seen v vs hv hr ih =>
    rw [ih fun x hx => hs x (List.mem_cons_of_mem v hx), tour_skip hv]
    rw [Option.eq_none_iff_forall_ne_some]
    rintro ⟨r, node⟩ hr'
    obtain ⟨rfl, hrseen, hn⟩ := unseen?_eq_some.1 hr'
    have hnot : r ∉ seen := fun hin =>
      hrseen ((hs _ List.mem_cons_self r node (.refl h r) hn).1 hin)
    rw [unseen?_eq_some.2 ⟨rfl, hnot, hn⟩] at hr
    cases hr
  | case4 seen v vs hv r node hr ih =>
    obtain ⟨rfl, hrseen, hn⟩ := unseen?_eq_some.1 hr
    have hself := hs _ List.mem_cons_self
    rw [tour_enter (fun hin => hrseen ((hself r node (.refl h r) hn).2 hin)) hn]
    apply ih
    intro x hx q n he hq
    rw [List.mem_cons, List.mem_cons]
    apply or_congr_right
    rcases List.mem_append.1 hx with hx | hx
    · obtain ⟨i, hi⟩ := Node.mem_slots.1 hx
      exact hself q n (he.head (open?_eq_some.1 hn).1 hi) hq
    · exact hs x (List.mem_cons_of_mem _ hx) q n he hq

/-- Walks from values that enter no list or dictionary in common can be made with nothing seen. -/
theorem flatMap_tour (hvs : vs.Pairwise fun v w => ∀ r, h.Enters v r → h.Enters w r →
    h.open? r = none) : vs.flatMap (fun v => h.tour [] [v]) = h.tour [] vs := by
  induction vs with
  | nil => exact (tour_nil h []).symm
  | cons v vs ih =>
    obtain ⟨hv, hvs⟩ := List.pairwise_cons.1 hvs
    obtain ⟨seen', hseen', htour⟩ := exists_tour_append (h := h) [] [v]
    rw [List.flatMap_cons, ih hvs]
    refine (congrArg _ (tour_congr fun w hw r node hr hn => ?_)).trans (htour vs).symm
    constructor
    · exact fun hr => by cases hr
    · intro hin
      rcases hseen' r hin with hin | ⟨x, hx, n, he, -⟩
      · exact hin
      · obtain rfl := List.mem_singleton.1 hx
        rw [hv w hw r he hr] at hn
        cases hn

/-- A text lies at the end of a route through items of lists and values of dictionaries. -/
def Meets (h : Heap) (v : Value) (s : String) : Prop :=
  ∃ (is : List Nat) (x : Value), h.follow (is.map .slot) v = some x ∧ x.asText? = some s

theorem Meets.here (hv : v.asText? = some s) : h.Meets v s := ⟨[], v, rfl, hv⟩

theorem Meets.head {i : Nat} (hr : h.get? r = some node) (hx : node.slot? i = some x)
    (hm : h.Meets x s) : h.Meets (.ref r) s := by
  obtain ⟨is, y, hy, hs⟩ := hm
  exact ⟨i :: is, y, follow_cons_eq_some.2 ⟨r, node, x, rfl, hr, hx, hy⟩, hs⟩

theorem meets_iff : h.Meets v s ↔ v.asText? = some s ∨
    ∃ r node x, h.Enters v r ∧ h.get? r = some node ∧ x ∈ node.slots ∧ x.asText? = some s := by
  constructor
  · rintro ⟨is, y, hy, hs⟩
    rcases List.eq_nil_or_concat is with rfl | ⟨is, i, rfl⟩
    · cases hy
      exact .inl hs
    · rw [List.concat_eq_append, List.map_append, follow_append, Option.bind_eq_some_iff] at hy
      obtain ⟨u, hu, hy⟩ := hy
      obtain ⟨r, node, z, rfl, hr, hz, hy⟩ := follow_cons_eq_some.1 hy
      cases hy
      exact .inr ⟨r, node, _, ⟨is, hu⟩, hr, Node.mem_slots.2 ⟨i, hz⟩, hs⟩
  · rintro (hs | ⟨r, node, x, ⟨is, hr⟩, hn, hx, hs⟩)
    · exact .here hs
    · obtain ⟨i, hi⟩ := Node.mem_slots.1 hx
      refine ⟨is ++ [i], x, ?_, hs⟩
      rw [List.map_append, follow_append, hr]
      exact follow_cons_eq_some.2 ⟨r, node, x, rfl, hn, hi, rfl⟩

def Alike (m : Ref → Ref) (P : Ref → Prop) (v w : Value) : Prop :=
  w.asRef? = v.asRef?.map m ∧ ∀ r, v = .ref r → P r

/-- A walk from one of some places finds its way in one heap as it does from the image of the place
in another. The texts on the way may differ. -/
structure Mirrors (h k : Heap) (m : Ref → Ref) (P : Ref → Prop) : Prop where
  injective : ∀ r q, P r → P q → m r = m q → r = q
  shut : ∀ r, P r → h.open? r = none → k.open? (m r) = none
  opened : ∀ r node, P r → h.open? r = some node →
    ∃ node', k.open? (m r) = some node' ∧ List.Forall₂ (Alike m P) node.slots node'.slots

variable {m : Ref → Ref} {P : Ref → Prop}

def SameTexts (h k : Heap) (m : Ref → Ref) (P : Ref → Prop) : Prop :=
  ∀ r node node', P r → h.open? r = some node → k.open? (m r) = some node' →
    node'.slots.map Value.asText? = node.slots.map Value.asText?

/-- Walks that find the same way and the same texts meet them in the same order. -/
theorem Mirrors.tour_eq (hm : Mirrors h k m P) (ht : SameTexts h k m P) (hseen : ∀ r ∈ seen, P r)
    (hvs : List.Forall₂ (Alike m P) vs ws) (hts : ws.map Value.asText? = vs.map Value.asText?) :
    k.tour (seen.map m) ws = h.tour seen vs := by
  fun_induction tour h seen vs generalizing ws with
  | case1 seen =>
    cases hvs
    rw [tour_nil]
  | case2 seen v vs s hs ih =>
    obtain ⟨w, ws, hw, hrest, rfl⟩ := List.forall₂_cons_left_iff.1 hvs
    obtain ⟨htw, hts⟩ := List.cons.inj hts
    rw [tour_text (htw.trans hs), ih hseen hrest hts]
  | case3 seen v vs hs hr ih =>
    obtain ⟨w, ws, hw, hrest, rfl⟩ := List.forall₂_cons_left_iff.1 hvs
    obtain ⟨htw, hts⟩ := List.cons.inj hts
    rw [tour_skip (htw.trans hs) ?_, ih hseen hrest hts]
    rw [Option.eq_none_iff_forall_ne_some]
    rintro ⟨t, node'⟩ ht
    obtain ⟨rfl, htseen, hn'⟩ := unseen?_eq_some.1 ht
    obtain ⟨r, hv, rfl⟩ := Option.map_eq_some_iff.1 hw.1.symm
    obtain rfl := Value.asRef?_eq_some.1 hv
    have hnot : r ∉ seen := fun hin => htseen (List.mem_map_of_mem hin)
    cases hn : h.open? r with
    | none =>
      rw [hm.shut r (hw.2 r rfl) hn] at hn'
      cases hn'
    | some node =>
      rw [unseen?_eq_some.2 ⟨rfl, hnot, hn⟩] at hr
      cases hr
  | case4 seen v vs hs r node hr ih =>
    obtain ⟨w, ws, hw, hrest, rfl⟩ := List.forall₂_cons_left_iff.1 hvs
    have hrestTexts := (List.cons.inj hts).2
    obtain ⟨rfl, hrseen, hn⟩ := unseen?_eq_some.1 hr
    obtain rfl := Value.asRef?_eq_some.1 hw.1
    have hP : P r := hw.2 r rfl
    obtain ⟨node', hn', hslots⟩ := hm.opened r node hP hn
    have hnot : m r ∉ seen.map m := by
      intro hin
      obtain ⟨q, hq, he⟩ := List.mem_map.1 hin
      obtain rfl := hm.injective q r (hseen q hq) hP he
      exact hrseen hq
    rw [tour_enter hnot hn', ← ih (List.forall_mem_cons.2 ⟨hP, hseen⟩)
      (List.rel_append hslots hrest) ?_, List.map_cons]
    rw [List.map_append, List.map_append, ht r node node' hP hn hn', hrestTexts]

theorem Mirrors.enters (hm : Mirrors h k m P) (hv : Alike m P v w) (hr : h.Enters v r) :
    P r ∧ k.Enters w (m r) := by
  refine hr.induction (P := fun v => ∀ w, Alike m P v w → P r ∧ k.Enters w (m r)) ?_ ?_ w hv
  · intro w hw
    obtain rfl := Value.asRef?_eq_some.1 hw.1
    exact ⟨hw.2 r rfl, .refl k _⟩
  · intro q node i u hq hu _ ih w hw
    obtain rfl := Value.asRef?_eq_some.1 hw.1
    obtain ⟨node', hq', hslots⟩ := hm.opened q node (hw.2 q rfl)
      (open?_eq_some.2 ⟨hq, Node.isOpen_of_slot? hu⟩)
    rw [Node.slot?_eq_slots] at hu
    obtain ⟨hlt, rfl⟩ := List.getElem?_eq_some_iff.1 hu
    have hlt' : i < node'.slots.length := hslots.length_eq ▸ hlt
    obtain ⟨hP, hr'⟩ := ih _ (List.Forall₂.get hslots hlt hlt')
    have hu' : node'.slot? i = some (node'.slots.get ⟨i, hlt'⟩) :=
      (Node.slot?_eq_slots node' i).trans (List.getElem?_eq_getElem hlt')
    exact ⟨hP, .head (open?_eq_some.1 hq').1 hu' hr'⟩

theorem Mirrors.enters_image (hm : Mirrors h k m P) (hv : Alike m P v w) (hr : k.Enters w q) :
    ∃ r, q = m r ∧ h.Enters v r := by
  refine hr.induction (P := fun w => ∀ v, Alike m P v w → ∃ r, q = m r ∧ h.Enters v r) ?_ ?_ v hv
  · intro v hv
    obtain ⟨r, hq, rfl⟩ := Option.map_eq_some_iff.1 hv.1.symm
    obtain rfl := Value.asRef?_eq_some.1 hq
    exact ⟨r, rfl, .refl h r⟩
  · intro t node' i u ht hu _ ih v hv
    obtain ⟨r, hq, rfl⟩ := Option.map_eq_some_iff.1 hv.1.symm
    obtain rfl := Value.asRef?_eq_some.1 hq
    have hP := hv.2 r rfl
    have hopen : k.open? (m r) = some node' := open?_eq_some.2 ⟨ht, Node.isOpen_of_slot? hu⟩
    cases hn : h.open? r with
    | none =>
      rw [hm.shut r hP hn] at hopen
      cases hopen
    | some node =>
      obtain ⟨node'', hn'', hslots⟩ := hm.opened r node hP hn
      obtain rfl : node'' = node' := Option.some.inj (hn''.symm.trans hopen)
      rw [Node.slot?_eq_slots] at hu
      obtain ⟨hlt, rfl⟩ := List.getElem?_eq_some_iff.1 hu
      have hlt' : i < node.slots.length := hslots.length_eq ▸ hlt
      obtain ⟨p, rfl, hp⟩ := ih _ (List.Forall₂.get hslots hlt' hlt)
      have hu' : node.slot? i = some (node.slots.get ⟨i, hlt'⟩) :=
        (Node.slot?_eq_slots node i).trans (List.getElem?_eq_getElem hlt')
      exact ⟨p, rfl, .head (open?_eq_some.1 hn).1 hu' hp⟩

theorem SameTexts.mem (ht : SameTexts h k m P) (hP : P r) (hn : h.open? r = some node)
    {node' : Node} (hn' : k.open? (m r) = some node') :
    (∃ x ∈ node.slots, x.asText? = some s) ↔ ∃ x ∈ node'.slots, x.asText? = some s := by
  have hmem := congrArg (some s ∈ ·) (ht r node node' hP hn hn')
  simp only [List.mem_map, eq_iff_iff] at hmem
  exact hmem.symm

theorem Mirrors.meets_iff (hm : Mirrors h k m P) (ht : SameTexts h k m P) (hv : Alike m P v w)
    (htw : w.asText? = v.asText?) : k.Meets w s ↔ h.Meets v s := by
  rw [Heap.meets_iff, Heap.meets_iff, htw]
  refine or_congr_right ⟨?_, ?_⟩
  · rintro ⟨q, node', y, hq, hn', hy, hs⟩
    obtain ⟨r, rfl, hr⟩ := hm.enters_image hv hq
    have hP := (hm.enters hv hr).1
    obtain ⟨j, hj⟩ := Node.mem_slots.1 hy
    have hopen := open?_eq_some.2 ⟨hn', Node.isOpen_of_slot? hj⟩
    cases hn : h.open? r with
    | none =>
      rw [hm.shut r hP hn] at hopen
      cases hopen
    | some node =>
      obtain ⟨x, hx, hs⟩ := (ht.mem hP hn hopen).2 ⟨y, hy, hs⟩
      exact ⟨r, node, x, hr, (open?_eq_some.1 hn).1, hx, hs⟩
  · rintro ⟨r, node, x, hr, hn, hx, hs⟩
    obtain ⟨hP, hr'⟩ := hm.enters hv hr
    obtain ⟨j, hj⟩ := Node.mem_slots.1 hx
    have hopen := open?_eq_some.2 ⟨hn, Node.isOpen_of_slot? hj⟩
    obtain ⟨node', hn', _⟩ := hm.opened r node hP hopen
    obtain ⟨y, hy, hs⟩ := (ht.mem hP hopen hn').1 ⟨x, hx, hs⟩
    exact ⟨m r, node', y, hr', (open?_eq_some.1 hn').1, hy, hs⟩

/-- No route from a value through lists and dictionaries that enters none twice is as long as a
limit. -/
def Shallow (h : Heap) : Nat → List Ref → Value → Prop
  | 0, _, _ => False
  | n + 1, entered, v => ∀ r node, v = .ref r → r ∉ entered → h.open? r = some node →
      ∀ x ∈ node.slots, h.Shallow n (r :: entered) x

variable {n : Nat} {entered entered' : List Ref}

theorem Shallow.succ (hs : h.Shallow n entered v) : h.Shallow (n + 1) entered v := by
  induction n generalizing entered v with
  | zero => exact hs.elim
  | succ n ih => exact fun r node hv hr hn x hx => ih (hs r node hv hr hn x hx)

theorem shallow_of_unseenCount_lt (hn : h.unseenCount seen < n) : h.Shallow n seen v := by
  induction n generalizing seen v with
  | zero => exact absurd hn (Nat.not_lt_zero _)
  | succ n ih =>
    rintro r node rfl hr ho x -
    have hlt := unseenCount_cons_lt (unseen?_eq_some.2 ⟨rfl, hr, ho⟩)
    exact ih (Nat.lt_of_lt_of_le hlt (Nat.le_of_lt_succ hn))

theorem shallow_of_size_lt (hn : h.nodes.size < n) : h.Shallow n [] v := by
  apply shallow_of_unseenCount_lt
  rwa [unseenCount, List.map_nil, List.toFinset_nil, Finset.sdiff_empty, Finset.card_range]

theorem Shallow.forget (hs : h.Shallow n entered v)
    (he : ∀ q ∈ entered, h.Enters v q → q ∈ entered') : h.Shallow n entered' v := by
  induction n generalizing entered entered' v with
  | zero => exact hs.elim
  | succ n ih =>
    rintro r node rfl hr hn x hx
    refine ih (hs r node rfl (fun hin => hr (he r hin (.refl h r))) hn x hx) fun q hq hxq => ?_
    rcases List.mem_cons.1 hq with rfl | hq
    · exact List.mem_cons_self
    · obtain ⟨i, hi⟩ := Node.mem_slots.1 hx
      exact List.mem_cons_of_mem r (he q hq (.head (open?_eq_some.1 hn).1 hi hxq))

theorem Mirrors.shallow (hm : Mirrors h k m P) (hv : Alike m P v w)
    (he : ∀ r ∈ entered, P r) (hs : h.Shallow n entered v) :
    k.Shallow n (entered.map m) w := by
  induction n generalizing entered v w with
  | zero => exact hs.elim
  | succ n ih =>
    rintro t node' rfl ht hn' y hy
    obtain ⟨r, hr, rfl⟩ := Option.map_eq_some_iff.1 hv.1.symm
    obtain rfl := Value.asRef?_eq_some.1 hr
    have hP : P r := hv.2 r rfl
    cases hn : h.open? r with
    | none =>
      rw [hm.shut r hP hn] at hn'
      cases hn'
    | some node =>
      obtain ⟨node'', hn'', hslots⟩ := hm.opened r node hP hn
      obtain rfl : node'' = node' := Option.some.inj (hn''.symm.trans hn')
      obtain ⟨i, hi, rfl⟩ := List.mem_iff_getElem.1 hy
      have hi' : i < node.slots.length := hslots.length_eq ▸ hi
      have hnot : r ∉ entered := fun hin => ht (List.mem_map_of_mem hin)
      exact ih (List.Forall₂.get hslots hi' hi) (List.forall_mem_cons.2 ⟨hP, he⟩)
        (hs r node rfl hnot hn _ (List.getElem_mem hi'))

end Promptbook.Heap

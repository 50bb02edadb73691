import Promptbook.Files.Document
import Promptbook.Proofs.Heap.Literal

namespace Promptbook

namespace Node

def isSealed : Node → Bool
  | «sealed» .. => true
  | _ => false

end Node

namespace Heap

variable {h k l : Heap} {v w x : Value} {r : Ref} {node : Node}

/-- A value that can be written in a file, and leads to no container of an old heap and to one of a
new heap if it leads to any. -/
structure Own (h k : Heap) (v : Value) : Prop where
  literal : v.isLiteral = true
  leads : ∀ r, v = .ref r → h.get? r = none ∧ ∃ node, k.get? r = some node

structure Grafts (h k : Heap) : Prop where
  keeps : h.Extends k
  apart : ∀ r node, k.get? r = some node → h.get? r = none →
    node.isSealed = false ∧ ∀ x ∈ node.elements, h.Own k x

theorem own_of_not_ref (hl : v.isLiteral = true) (hv : v.asRef? = none) : h.Own k v where
  literal := hl
  leads r hr := by
    subst hr
    cases hv

theorem own_ref (hh : h.get? r = none) (hk : k.get? r = some node) : h.Own k (.ref r) where
  literal := rfl
  leads q hq := by
    cases hq
    exact ⟨hh, node, hk⟩

theorem Own.holds (hv : h.Own k v) : k.Holds v :=
  fun r hr => (hv.leads r hr).2

theorem Grafts.refl (h : Heap) : h.Grafts h where
  keeps := .refl h
  apart r node hr hn := by
    rw [hr] at hn
    cases hn

theorem Grafts.closed (hg : h.Grafts k) (hc : h.Closed) : k.Closed := by
  intro r node st v hr hv
  cases hn : h.get? r with
  | none => exact ((hg.apart r node hr hn).2 v (Node.mem_elements.2 ⟨st, hv⟩)).holds
  | some old =>
    obtain rfl := Option.some.inj ((hg.keeps.keeps hn).symm.trans hr)
    exact hg.keeps.holds (hc.holds_step hn hv)

theorem Grafts.reached (hg : h.Grafts k) (hv : h.Own k v) (hr : k.Reaches v r) :
    h.get? r = none := by
  refine hr.induction (P := fun v => h.Own k v → h.get? r = none) ?_ ?_ hv
  · intro hown
    exact (hown.leads r rfl).1
  · intro q node st u hq hu _ ih hown
    exact ih ((hg.apart q node hq (hown.leads q rfl).1).2 u (Node.mem_elements.2 ⟨st, hu⟩))

theorem Grafts.unsealed (hg : h.Grafts k) (hv : h.Own k v) : k.Unsealed v := by
  intro r ks message hr hnode
  have hopen := (hg.apart r _ hnode (hg.reached hv hr)).1
  cases hopen

theorem Grafts.literal (hg : h.Grafts k) (hv : h.Own k v) : k.Literal v where
  unsealed := hg.unsealed hv
  parts ρ w hw := by
    induction ρ generalizing v with
    | nil => exact Option.some.inj hw ▸ hv.literal
    | cons st ρ ih =>
      obtain ⟨r, node, u, rfl, hr, hu, hw⟩ := follow_cons_eq_some.1 hw
      exact ih ((hg.apart r node hr (hv.leads r rfl).1).2 u (Node.mem_elements.2 ⟨st, hu⟩)) hw

theorem Own.mono (hv : h.Own k v) (he : k.Extends l) : h.Own l v where
  literal := hv.literal
  leads r hr := by
    obtain ⟨hn, node, hnode⟩ := hv.leads r hr
    exact ⟨hn, node, he.keeps hnode⟩

theorem Own.set (hv : h.Own k v) (r : Ref) (node : Node) : h.Own (k.set r node) v where
  literal := hv.literal
  leads q hq := ⟨(hv.leads q hq).1, Holds.set hv.holds r node q hq⟩

theorem Grafts.store (hg : h.Grafts k) (hs : node.isSealed = false)
    (hx : ∀ x ∈ node.elements, h.Own k x) :
    h.Grafts (k.store node).2 ∧ h.Own (k.store node).2 (k.store node).1 := by
  have he : k.Extends (k.store node).2 := .alloc k node
  have hnew : k.get? (k.alloc node).1 = none := get?_alloc_fst k node
  refine ⟨⟨hg.keeps.trans he, fun r n hr hn => ?_⟩, ?_⟩
  · cases hold : k.get? r with
    | some old =>
      obtain rfl := Option.some.inj ((he.keeps hold).symm.trans hr)
      obtain ⟨hopen, helements⟩ := hg.apart r old hold hn
      exact ⟨hopen, fun x hx => (helements x hx).mono he⟩
    | none =>
      have hat : r = (k.alloc node).1 := by
        simp only [get?, Heap.store, alloc, Array.getElem?_push] at hr hold ⊢
        split at hr
        · next hi =>
          cases r
          simp only at hi
          rw [hi]
        · rw [hold] at hr
          cases hr
      subst hat
      obtain rfl : node = n := Option.some.inj ((get?_alloc k node).symm.trans hr)
      exact ⟨hs, fun x hx' => (hx x hx').mono he⟩
  · exact own_ref (get?_eq_none_of_extends hg.keeps hnew) (get?_alloc k node)

theorem Grafts.set (hg : h.Grafts k) (hr : h.Own k (.ref r)) (hs : node.isSealed = false)
    (hx : ∀ x ∈ node.elements, h.Own k x) : h.Grafts (k.set r node) where
  keeps := hg.keeps.set (hr.leads r rfl).1 node
  apart q n hq hn := by
    by_cases he : r = q
    · subst he
      obtain ⟨old, hold⟩ := (hr.leads r rfl).2
      obtain rfl : node = n := Option.some.inj ((get?_set_self hold).symm.trans hq)
      exact ⟨hs, fun x hx' => (hx x hx').set r node⟩
    · rw [get?_set_of_ne he] at hq
      obtain ⟨hopen, helements⟩ := hg.apart q n hq hn
      exact ⟨hopen, fun x hx' => (helements x hx').set r node⟩

end Heap

namespace Entries

variable {h : Heap} {es : Entries Value} {key x : Value} {name : String} {P : Value → Prop}

theorem forall_mem_put (hes : ∀ e ∈ es, P e.1 ∧ P e.2) (hk : P key) (hx : P x) :
    ∀ e ∈ put h key x es, P e.1 ∧ P e.2 := by
  induction es with
  | nil => exact List.forall_mem_singleton.2 ⟨hk, hx⟩
  | cons e es ih =>
    obtain ⟨he, hes⟩ := List.forall_mem_cons.1 hes
    rw [put]
    split
    · exact List.forall_mem_cons.2 ⟨⟨he.1, hx⟩, hes⟩
    · exact List.forall_mem_cons.2 ⟨he, ih hes⟩

theorem forall_mem_putText (hes : ∀ e ∈ es, P e.1 ∧ P e.2) (hk : P (.text name)) (hx : P x) :
    ∀ e ∈ putText name x es, P e.1 ∧ P e.2 := by
  induction es with
  | nil => exact List.forall_mem_singleton.2 ⟨hk, hx⟩
  | cons e es ih =>
    obtain ⟨he, hes⟩ := List.forall_mem_cons.1 hes
    rw [putText]
    split
    · exact List.forall_mem_cons.2 ⟨⟨he.1, hx⟩, hes⟩
    · exact List.forall_mem_cons.2 ⟨he, ih hes⟩

end Entries

namespace Heap

variable {h : Heap} {es : Entries Value}

theorem forall_mem_elements {P : Value → Prop} (hes : ∀ e ∈ es, P e.1 ∧ P e.2) :
    ∀ x ∈ (Node.dict es).elements, P x := by
  intro x hx
  obtain ⟨e, he, hx⟩ := List.mem_flatMap.1 hx
  simp only [List.mem_cons, List.not_mem_nil, or_false] at hx
  rcases hx with rfl | rfl
  · exact (hes e he).1
  · exact (hes e he).2

mutual

theorem grafts_ofJson {k : Heap} (hg : h.Grafts k) : ∀ j : Json,
    h.Grafts (k.ofJson j).2 ∧ k.Extends (k.ofJson j).2 ∧ h.Own (k.ofJson j).2 (k.ofJson j).1
  | .null | .bool _ | .int _ | .real _ | .text _ => ⟨hg, .refl k, own_of_not_ref rfl rfl⟩
  | .list js => by
    obtain ⟨hg', he, hvs⟩ := grafts_ofJsonItems hg js
    obtain ⟨hg'', hown⟩ : h.Grafts (k.ofJson (.list js)).2 ∧
        h.Own (k.ofJson (.list js)).2 (k.ofJson (.list js)).1 := hg'.store rfl hvs
    exact ⟨hg'', he.trans (.alloc _ _), hown⟩
  | .object ms => by
    obtain ⟨hg', he, hes⟩ := grafts_ofJsonMembers hg [] (List.forall_mem_nil _) ms
    obtain ⟨hg'', hown⟩ : h.Grafts (k.ofJson (.object ms)).2 ∧
        h.Own (k.ofJson (.object ms)).2 (k.ofJson (.object ms)).1 :=
      hg'.store rfl (forall_mem_elements hes)
    exact ⟨hg'', he.trans (.alloc _ _), hown⟩

theorem grafts_ofJsonItems {k : Heap} (hg : h.Grafts k) : ∀ js : List Json,
    h.Grafts (k.ofJsonItems js).2 ∧ k.Extends (k.ofJsonItems js).2 ∧
      ∀ v ∈ (k.ofJsonItems js).1, h.Own (k.ofJsonItems js).2 v
  | [] => ⟨hg, .refl k, List.forall_mem_nil _⟩
  | j :: js => by
    obtain ⟨hg', he, hv⟩ := grafts_ofJson hg j
    obtain ⟨hg'', he', hvs⟩ := grafts_ofJsonItems hg' js
    exact ⟨hg'', he.trans he', List.forall_mem_cons.2 ⟨hv.mono he', hvs⟩⟩

theorem grafts_ofJsonMembers {k : Heap} (hg : h.Grafts k) (done : Entries Value)
    (hdone : ∀ e ∈ done, h.Own k e.1 ∧ h.Own k e.2) : ∀ ms : List (String × Json),
    h.Grafts (k.ofJsonMembers done ms).2 ∧ k.Extends (k.ofJsonMembers done ms).2 ∧
      ∀ e ∈ (k.ofJsonMembers done ms).1, h.Own (k.ofJsonMembers done ms).2 e.1 ∧
        h.Own (k.ofJsonMembers done ms).2 e.2
  | [] => ⟨hg, .refl k, hdone⟩
  | (name, j) :: ms => by
    obtain ⟨hg', he, hv⟩ := grafts_ofJson hg j
    have hdone' : ∀ e ∈ Entries.putText name (k.ofJson j).1 done,
        h.Own (k.ofJson j).2 e.1 ∧ h.Own (k.ofJson j).2 e.2 :=
      Entries.forall_mem_putText (fun e hd => ⟨(hdone e hd).1.mono he, (hdone e hd).2.mono he⟩)
        (own_of_not_ref rfl rfl) hv
    obtain ⟨hg'', he', hes⟩ := grafts_ofJsonMembers hg' _ hdone' ms
    exact ⟨hg'', he.trans he', hes⟩

end

end Heap

end Promptbook

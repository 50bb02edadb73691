import Promptbook.Prompt.Basic
import Promptbook.Proofs.Heap.Parts
import Promptbook.Proofs.Registry.Keys

namespace Promptbook

/-- The value is a text, or a member of a taxonomy and so a text. -/
def Value.IsText (v : Value) : Prop :=
  ∃ s, v.asText? = some s

structure Entries.Texted {β : Type} (es : Entries β) : Prop where
  texts : ∀ e ∈ es, e.1.IsText
  nodup : (es.map fun e => e.1.asText?).Nodup

namespace Heap

variable {h k : Heap} {v w : Value} {m : Mapping} {xs : List Value} {es : Entries Value}
  {name : String}  {fields others : List (String × Value)}

theorem list?_eq_some : h.list? v = some xs ↔ h.node? v = some (.list xs) := by
  rw [list?]
  split
  · next ys hn => rw [hn, Option.some.injEq, Option.some.injEq, Node.list.injEq]
  · next hn => exact ⟨fun he => (by cases he), fun he => (hn _ he).elim⟩

theorem dict?_eq_some : h.dict? v = some es ↔ h.node? v = some (.dict es) := by
  rw [dict?]
  split
  · next fs hn => rw [hn, Option.some.injEq, Option.some.injEq, Node.dict.injEq]
  · next hn => exact ⟨fun he => (by cases he), fun he => (hn _ he).elim⟩

theorem asMapping_eq_ok : h.asMapping v = .ok m ↔ h.mapping? v = some m := by
  rw [asMapping]
  cases h.mapping? v <;> simp

theorem holds_of_node? {node : Node} (hn : h.node? v = some node) : h.Holds v := by
  obtain ⟨r, rfl, hr⟩ := exists_of_node? hn
  intro s hs
  cases hs
  exact ⟨node, hr⟩

theorem Extends.list?_of_some (he : h.Extends k) (hv : h.list? v = some xs) :
    k.list? v = some xs := by
  rw [list?_eq_some] at hv ⊢
  rw [he.node?_eq (holds_of_node? hv), hv]

theorem Extends.dict?_of_some (he : h.Extends k) (hv : h.dict? v = some es) :
    k.dict? v = some es := by
  rw [dict?_eq_some] at hv ⊢
  rw [he.node?_eq (holds_of_node? hv), hv]

theorem mapping?_of_dict? (hv : h.dict? v = some es) : h.mapping? v = some (.entries es) := by
  rw [mapping?, dict?_eq_some.1 hv]

theorem isMapping_of_dict? (hv : h.dict? v = some es) : h.isMapping v = true := by
  rw [isMapping, mapping?_of_dict? hv]
  rfl

theorem list?_store (h : Heap) (xs : List Value) :
    (h.store (.list xs)).2.list? (h.store (.list xs)).1 = some xs :=
  list?_eq_some.2 (get?_alloc h _)

theorem dict?_store (h : Heap) (es : List (Value × Value)) :
    (h.store (.dict es)).2.dict? (h.store (.dict es)).1 = some es :=
  dict?_eq_some.2 (get?_alloc h _)

theorem truth_of_list? (hv : h.list? v = some xs) : h.truth v = .ok !xs.isEmpty := by
  obtain ⟨r, rfl, hr⟩ := exists_of_node? (list?_eq_some.1 hv)
  simp only [truth_ref, truthy, hr]

theorem truth_of_dict? (hv : h.dict? v = some es) : h.truth v = .ok !es.isEmpty := by
  obtain ⟨r, rfl, hr⟩ := exists_of_node? (dict?_eq_some.1 hv)
  simp only [truth_ref, truthy, hr]

theorem iterate_of_list? (hv : h.list? v = some xs) : h.iterate v = .ok xs := by
  simp only [iterate, list?_eq_some.1 hv]

theorem Closed.holds_list (hc : h.Closed) (hv : h.list? v = some xs) : ∀ x ∈ xs, h.Holds x := by
  obtain ⟨r, rfl, hr⟩ := exists_of_node? (list?_eq_some.1 hv)
  exact fun x hx => hc.holds_element hr hx

theorem newList_of_iterate (hv : h.iterate v = .ok xs) : h.newList v = .ok (h.store (.list xs)) := by
  rw [newList, hv]
  rfl

theorem newList_of_list? (hv : h.list? v = some xs) : h.newList v = .ok (h.store (.list xs)) :=
  newList_of_iterate (iterate_of_list? hv)

theorem holds_of_iterate (hv : h.iterate v = .ok xs) : h.Holds v := by
  intro r hr
  subst hr
  cases hget : h.get? r with
  | some node => exact ⟨node, rfl⟩
  | none =>
    simp only [iterate, node?_ref, hget] at hv
    cases hv

theorem Extends.iterate_of_ok (he : h.Extends k) (hv : h.iterate v = .ok xs) :
    k.iterate v = .ok xs := by
  rw [he.iterate_eq (holds_of_iterate hv), hv]

theorem newDict_of_dict? (hv : h.dict? v = some es) : h.newDict v = .ok (h.store (.dict es)) := by
  rw [newDict, entriesOf, mapping?_of_dict? hv]
  rfl

theorem newListOr_of_list? (hv : v = .null ∧ xs = [] ∨ h.list? v = some xs) :
    h.newListOr v = .ok (h.store (.list xs)) := by
  cases hv with
  | inl hv =>
    rw [hv.1, hv.2]
    rfl
  | inr hv =>
    rw [newListOr, truth_of_list? hv, newList_of_list? hv]
    cases xs <;> rfl

theorem newDictOr_of_dict? (hv : h.dict? v = some es) :
    h.newDictOr v = .ok (h.store (.dict es)) := by
  rw [newDictOr, truth_of_dict? hv, newDict_of_dict? hv]
  cases es <;> rfl

section Fields

theorem lookupText_fields (name : String) (fields : List (String × Value)) :
    lookupText name (fields.map fun f => (.text f.1, f.2)) = fields.lookup name := by
  induction fields with
  | nil => rfl
  | cons f fields ih =>
    rw [lookupText] at ih ⊢
    rw [List.map_cons, List.find?_cons, List.lookup_cons, Value.asText?_text, Option.some_beq_some,
      BEq.comm]
    cases name == f.1 with
    | true => rfl
    | false => exact ih

theorem lookup_present_ne (hn : name ∉ fields.map (·.1)) :
    (present fields).lookup name = none := by
  rw [List.lookup_eq_none_iff]
  intro f hf
  rw [bne_iff_ne]
  intro he
  exact hn (List.mem_map.2 ⟨f, (List.mem_filter.1 hf).1, he.symm⟩)

/-- Leaving out the null fields does not change what a field gives. -/
theorem lookup_present (hn : (fields.map (·.1)).Nodup) :
    ((present fields).lookup name).getD .null = (fields.lookup name).getD .null := by
  induction fields with
  | nil => rfl
  | cons f fields ih =>
    rw [List.map_cons, List.nodup_cons] at hn
    rw [present, List.filter_cons, List.lookup_cons]
    by_cases hname : name = f.1
    · rw [hname, beq_self_eq_true]
      by_cases hnull : f.2 = .null
      · rw [if_neg (by simp [hnull]), hnull]
        change ((present fields).lookup f.1).getD .null = _
        rw [lookup_present_ne hn.1]
        rfl
      · rw [if_pos (by simp [hnull]), List.lookup_cons, beq_self_eq_true]
    · rw [beq_eq_false_iff_ne.2 hname]
      by_cases hnull : f.2 = .null
      · rw [if_neg (by simp [hnull])]
        exact ih hn.2
      · rw [if_pos (by simp [hnull]), List.lookup_cons, beq_eq_false_iff_ne.2 hname]
        exact ih hn.2

end Fields

/-- Two values are the same, or lists of the same items, or dictionaries with the same entries
under texts. -/
inductive Twin (h : Heap) : Value → Value → Prop
  | same (v : Value) : Twin h v v
  | lists {v w : Value} {xs : List Value} :
      h.list? v = some xs → h.list? w = some xs → Twin h v w
  | dicts {v w : Value} {es : Entries Value} :
      h.dict? v = some es → h.dict? w = some es → es.Texted → Twin h v w

theorem Twin.mono (hv : h.Twin v w) (he : h.Extends k) : k.Twin v w := by
  cases hv with
  | same => exact .same v
  | lists hv hw => exact .lists (he.list?_of_some hv) (he.list?_of_some hw)
  | dicts hv hw hes => exact .dicts (he.dict?_of_some hv) (he.dict?_of_some hw) hes

variable {same : Value → Value → Except Fault Bool}

theorem allSame_self (hs : ∀ x, same x x = .ok true) (xs : List Value) :
    allSame same xs xs = .ok true := by
  induction xs with
  | nil => rfl
  | cons x xs ih => rw [allSame, hs, ok_bind, if_pos rfl, ih]

theorem allOk_true {α : Type} {test : α → Except Fault Bool} {xs : List α}
    (ht : ∀ x ∈ xs, test x = .ok true) : allOk test xs = .ok true := by
  induction xs with
  | nil => rfl
  | cons x xs ih =>
    rw [List.forall_mem_cons] at ht
    rw [allOk, ht.1, ok_bind, if_pos rfl, ih ht.2]

theorem findOk_self {e : Value × Value} (hes : es.Texted) (he : e ∈ es)
    (hs : ∀ a b s t, a.asText? = some s → b.asText? = some t → same a b = .ok (s == t)) :
    findOk (fun f => same e.1 f.1) es = .ok (some e) := by
  induction es with
  | nil => cases he
  | cons f es ih =>
    obtain ⟨s, hes₁⟩ := hes.texts e he
    obtain ⟨t, hft⟩ := hes.texts f List.mem_cons_self
    have hnodup := hes.nodup
    rw [List.map_cons, List.nodup_cons] at hnodup
    rw [findOk, hs _ _ s t hes₁ hft, ok_bind]
    cases List.mem_cons.1 he with
    | inl hef =>
      subst hef
      obtain rfl := Option.some.inj (hes₁.symm.trans hft)
      rw [beq_self_eq_true, if_pos rfl]
      rfl
    | inr hrest =>
      have hne : s ≠ t := by
        intro hst
        apply hnodup.1
        rw [hft, ← hst, ← hes₁]
        exact List.mem_map_of_mem hrest
      rw [beq_eq_false_iff_ne.2 hne, if_neg (by simp)]
      exact ih ⟨fun g hg => hes.texts g (List.mem_cons_of_mem _ hg), hnodup.2⟩ hrest

theorem equalWithin_twin (n : Nat) (hv : h.Twin v w) (hne : v ≠ w) :
    h.equalWithin (n + 2) v w = .ok true := by
  have hself (x : Value) :
      (if x = x then .ok true else h.equalWithin (n + 1) x x) = Except.ok (ε := Fault) true :=
    if_pos rfl
  cases hv with
  | same => exact (hne rfl).elim
  | lists hv hw =>
    simp only [equalWithin, list?_eq_some.1 hv, list?_eq_some.1 hw]
    exact allSame_self hself _
  | dicts hv hw hes =>
    have hkeys (a b : Value) (s t : String) (ha : a.asText? = some s) (hb : b.asText? = some t) :
        (if a = b then .ok true else h.equalWithin (n + 1) a b) =
          Except.ok (ε := Fault) (s == t) := by
      split
      · next hab =>
        subst hab
        obtain rfl := Option.some.inj (ha.symm.trans hb)
        rw [beq_self_eq_true]
      · exact equalWithin_of_asText n ha hb
    rw [equalWithin]
    simp only [dict?_eq_some.1 hv, dict?_eq_some.1 hw, ne_eq, not_true_eq_false, ↓reduceIte]
    apply allOk_true
    intro e he
    rw [findOk_self hes he hkeys, ok_bind]
    exact hself e.2

theorem Twin.equalElement (hv : h.Twin v w) : h.equalElement v w = .ok true := by
  rw [Heap.equalElement]
  split
  · rfl
  · next hne =>
    have hlimit : walkLimit = 998 + 2 := rfl
    rw [equal, hlimit, equalWithin_twin 998 hv hne]

theorem equalElement_of_asText {s t : String} (hv : v.asText? = some s) (hw : w.asText? = some t) :
    h.equalElement v w = .ok (s == t) := by
  rw [equalElement]
  split
  · next he =>
    subst he
    obtain rfl := Option.some.inj (hv.symm.trans hw)
    rw [beq_self_eq_true]
  · obtain ⟨n, hn⟩ := walkLimit_eq_succ
    rw [equal, hn, equalWithin_of_asText n hv hw]

theorem allSame_cons_of_twin (hv : h.Twin v w) {ys : List Value} :
    allSame h.equalElement (v :: xs) (w :: ys) = allSame h.equalElement xs ys := by
  rw [allSame, hv.equalElement, ok_bind, if_pos rfl]

theorem allSame_of_twins {ys : List Value} (hs : List.Forall₂ h.Twin xs ys) :
    allSame h.equalElement xs ys = .ok true := by
  induction hs with
  | nil => rfl
  | cons hv _ ih => rw [allSame_cons_of_twin hv, ih]

end Heap

end Promptbook

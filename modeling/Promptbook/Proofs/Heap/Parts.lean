import Promptbook.Prompt.Basic
import Promptbook.Proofs.Heap.Expansion
import Promptbook.Proofs.Heap.Frame

namespace Promptbook.Heap

variable {h k : Heap} {v w x : Value} {r : Ref} {node : Node} {m : Mapping} {name : String}
  {xs : List Value} {n : Nat} {entered entered' : List Ref} {ρ : List Step}

def Unsealed (h : Heap) (v : Value) : Prop :=
  ∀ r ks message, h.Reaches v r → h.get? r ≠ some (.sealed ks message)

/-- No route that enters no list, dictionary or set twice is as long as a limit, wherever in the
value it starts. -/
structure Bounded (h : Heap) (n : Nat) (v : Value) : Prop where
  whole : h.Nested n [] v
  part : ∀ ρ w, ρ ≠ [] → h.follow ρ v = some w → h.Nested (n - 1) [] w

theorem Unsealed.part (hu : h.Unsealed v) (hw : h.follow ρ v = some w) : h.Unsealed w := by
  intro r ks message hr
  obtain ⟨σ, hσ⟩ := hr
  apply hu
  exact ⟨ρ ++ σ, by rw [follow_append, hw]; exact hσ⟩

theorem Unsealed.entries (hu : h.Unsealed v) (hm : h.mapping? v = some m) :
    ∃ es, m = .entries es := by
  rw [mapping?] at hm
  split at hm
  · next es _ => exact ⟨es, (Option.some.inj hm).symm⟩
  · next ks message hn =>
    obtain ⟨r, rfl, hr⟩ := exists_of_node? hn
    exact (hu r ks message (.refl h r) hr).elim
  · cases hm

theorem Bounded.nested (hb : h.Bounded n v) (hw : h.follow ρ v = some w) :
    h.Nested n [] w := by
  cases ρ with
  | nil =>
    cases hw
    exact hb.whole
  | cons st ρ => exact (hb.part _ w (List.cons_ne_nil st ρ) hw).mono (Nat.sub_le _ _)

theorem Nested.weaken (hn : h.Nested n entered v) (hsub : entered ⊆ entered') :
    h.Nested n entered' v := by
  induction n generalizing entered entered' v with
  | zero => exact hn.elim
  | succ n ih =>
    intro r node hv hr hnode x hx
    apply ih (hn r node hv (fun hin => hr (hsub hin)) hnode x hx)
    split
    · exact hsub
    · exact List.cons_subset_cons r hsub

theorem follow_single {st : Step} :
    h.follow [st] v = some w ↔
      ∃ r node, v = .ref r ∧ h.get? r = some node ∧ node.step? st = some w := by
  rw [follow_cons_eq_some]
  constructor
  · intro hw
    obtain ⟨r, node, u, hv, hr, hu, hw⟩ := hw
    exact ⟨r, node, hv, hr, Option.some.inj hw ▸ hu⟩
  · intro hw
    obtain ⟨r, node, hv, hr, hw⟩ := hw
    exact ⟨r, node, w, hv, hr, hw, rfl⟩

theorem follow_of_not_ref (hv : v.asRef? = none) (hw : h.follow ρ v = some w) : w = v := by
  cases ρ with
  | nil => exact (Option.some.inj hw).symm
  | cons st ρ =>
    obtain ⟨r, -, -, rfl, -⟩ := follow_cons_eq_some.1 hw
    cases hv

def elements (h : Heap) : List Value :=
  h.nodes.toList.flatMap Node.elements

theorem mem_of_follow (hw : h.follow ρ v = some w) : w ∈ v :: h.elements := by
  induction ρ generalizing v with
  | nil => exact Option.some.inj hw ▸ List.mem_cons_self
  | cons st ρ ih =>
    obtain ⟨r, node, u, rfl, hr, hu, hw⟩ := follow_cons_eq_some.1 hw
    apply List.mem_cons_of_mem
    obtain rfl | hin := List.mem_cons.1 (ih hw)
    · have hnode : node ∈ h.nodes.toList := Array.mem_toList_iff.2 (Array.mem_of_getElem? hr)
      exact List.mem_flatMap.2 ⟨node, hnode, Node.mem_elements.2 ⟨st, hu⟩⟩
    · exact hin

def Testable (h : Heap) (v : Value) : Prop :=
  ∀ ρ w, h.follow ρ v = some w → w.isTestable = true

theorem Testable.of_elements (hv : ∀ w ∈ v :: h.elements, w.isTestable = true) : h.Testable v :=
  fun _ w hw => hv w (mem_of_follow hw)

theorem Copyable.of_elements (hv : ∀ w ∈ v :: h.elements, w.isCopyable = true) : h.Copyable v :=
  fun _ w hw => hv w (mem_of_follow hw)

theorem Bounded.of_elements {limit : Nat} (hle : n + 1 ≤ limit)
    (hn : ∀ w ∈ v :: h.elements, h.Nested n [] w) : h.Bounded limit v where
  whole := (hn v List.mem_cons_self).mono (Nat.le_of_succ_le hle)
  part _ w _ hw := (hn w (mem_of_follow hw)).mono (Nat.le_sub_one_of_lt hle)

theorem node?_of_mapping? (hm : h.mapping? v = some m) : ∃ node, h.node? v = some node := by
  rw [mapping?] at hm
  cases hn : h.node? v with
  | none => simp [hn] at hm
  | some node => exact ⟨node, rfl⟩

theorem exists_of_entries {es : List (Value × Value)} (hm : h.mapping? v = some (.entries es)) :
    ∃ r, v = .ref r ∧ h.get? r = some (.dict es) := by
  rw [mapping?] at hm
  split at hm
  · next es' hn =>
    cases hm
    exact exists_of_node? hn
  · cases hm
  · cases hm

theorem holds_of_mapping? (hm : h.mapping? v = some m) : h.Holds v := by
  obtain ⟨node, hn⟩ := node?_of_mapping? hm
  obtain ⟨r, rfl, hr⟩ := exists_of_node? hn
  intro q hq
  cases hq
  exact ⟨node, hr⟩

theorem Closed.holds_mapping {es : List (Value × Value)} (hc : h.Closed)
    (hm : h.mapping? v = some (.entries es)) : ∀ e ∈ es, h.Holds e.1 ∧ h.Holds e.2 := by
  obtain ⟨r, rfl, hr⟩ := exists_of_entries hm
  exact fun e he => hc.holds_entry hr he

theorem truthy_of_field (hm : h.mapping? v = some m) (hw : m.field name = .ok w)
    (hne : w ≠ .null) : h.truthy v = true := by
  rw [mapping?] at hm
  split at hm
  · next es hn =>
    obtain ⟨r, rfl, hr⟩ := exists_of_node? hn
    obtain rfl := Option.some.inj hm
    cases es with
    | nil => exact (hne (Except.ok.inj hw).symm).elim
    | cons e es => simp [truthy, hr]
  · obtain rfl := Option.some.inj hm
    cases hw
  · cases hm

theorem follow_of_lookupText {es : List (Value × Value)} (hr : h.get? r = some (.dict es))
    (hw : lookupText name es = some w) : ∃ i, h.follow [.slot i] (.ref r) = some w := by
  obtain ⟨e, he, rfl⟩ := Option.map_eq_some_iff.1 hw
  obtain ⟨i, hi⟩ := List.mem_iff_getElem?.1 (List.mem_of_find?_eq_some he)
  exact ⟨i, follow_single.2 ⟨r, _, rfl, hr, by simp [Node.step?, Node.slot?, hi]⟩⟩

theorem follow_of_field (hm : h.mapping? v = some m) (hw : m.field name = .ok w) :
    w = .null ∨ ∃ i, h.follow [.slot i] v = some w := by
  rw [mapping?] at hm
  split at hm
  · next es hn =>
    obtain rfl := Option.some.inj hm
    obtain ⟨r, rfl, hr⟩ := exists_of_node? hn
    simp only [Mapping.field, Mapping.get, Except.map, Except.ok.injEq] at hw
    cases hl : lookupText name es with
    | none =>
      rw [hl] at hw
      exact .inl hw.symm
    | some u =>
      rw [hl] at hw
      exact .inr (follow_of_lookupText hr (hl.trans (congrArg some hw)))
  · obtain rfl := Option.some.inj hm
    cases hw
  · cases hm

theorem follow_of_iterate (hu : h.Unsealed v) (hi : h.iterate v = .ok xs) (hx : x ∈ xs) :
    (x.asRef? = none ∧ x.isCopyable = true) ∨ ∃ st, h.follow [st] v = some x := by
  cases hn : h.node? v with
  | none =>
    left
    cases v with
    | bytes data =>
      simp only [iterate, hn, Except.ok.injEq] at hi
      rw [← hi] at hx
      obtain ⟨b, -, rfl⟩ := List.mem_map.1 hx
      exact ⟨rfl, rfl⟩
    | ref r =>
      simp only [iterate, hn, Value.asText?_ref] at hi
      cases hi
    | text s | kind d | category c =>
      simp only [iterate, hn, Value.asText?, Except.ok.injEq] at hi
      rw [← hi] at hx
      obtain ⟨c, -, rfl⟩ := List.mem_map.1 hx
      exact ⟨rfl, rfl⟩
    | _ =>
      simp only [iterate, hn, Value.asText?] at hi
      cases hi
  | some node =>
    obtain ⟨r, rfl, hr⟩ := exists_of_node? hn
    right
    have hmem : x ∈ node.elements := by
      simp only [iterate, hn] at hi
      cases node with
      | list ys => exact (Except.ok.inj hi) ▸ hx
      | tuple ys => exact (Except.ok.inj hi) ▸ hx
      | set ys => exact (Except.ok.inj hi) ▸ hx
      | dict es =>
        obtain ⟨e, he, rfl⟩ := List.mem_map.1 ((Except.ok.inj hi) ▸ hx)
        exact (Node.mem_elements_entry he).1
      | «sealed» ks message => exact (hu r ks message (.refl h r) hr).elim
    obtain ⟨st, hst⟩ := Node.mem_elements.1 hmem
    exact ⟨st, follow_single.2 ⟨r, node, rfl, hr, hst⟩⟩

theorem closed_empty : Heap.empty.Closed := by
  intro r node st v hr
  cases hr

theorem Closed.holds_follow (hc : h.Closed) (hv : h.Holds v) (hw : h.follow ρ v = some w) :
    h.Holds w := by
  intro r hr
  subst hr
  exact hc.reached hv ⟨ρ, hw⟩

theorem Extends.iterate_eq (he : h.Extends k) (hv : h.Holds v) : k.iterate v = h.iterate v := by
  cases v with
  | ref r =>
    obtain ⟨node, hr⟩ := hv r rfl
    simp only [iterate, node?_ref, he.keeps hr, hr]
    cases node <;> rfl
  | _ => rfl

theorem Extends.nested (he : h.Extends k) (hc : h.Closed) (hv : h.Holds v)
    (hn : h.Nested n entered v) : k.Nested n entered v := by
  induction n generalizing entered v with
  | zero => exact hn.elim
  | succ n ih =>
    rintro r node rfl hr hnode x hx
    rw [he.get?_eq (hv r rfl)] at hnode
    exact ih (hc.holds_element hnode hx) (hn r node rfl hr hnode x hx)

theorem Extends.copyable (he : h.Extends k) (hc : h.Closed) (hv : h.Holds v)
    (ha : h.Copyable v) : k.Copyable v := by
  intro ρ w hw
  rw [he.follow_eq hc hv] at hw
  exact ha ρ w hw

theorem Testable.field (ht : h.Testable v) (hm : h.mapping? v = some m)
    (hw : m.field name = .ok w) : w.isTestable = true := by
  obtain rfl | ⟨i, hi⟩ := follow_of_field hm hw
  · rfl
  · exact ht _ w hi

theorem Unsealed.of_not_ref (hv : v.asRef? = none) : h.Unsealed v := by
  intro r ks message hr
  obtain ⟨ρ, hρ⟩ := hr
  rw [← follow_of_not_ref hv hρ] at hv
  cases hv

theorem Unsealed.field (hu : h.Unsealed v) (hm : h.mapping? v = some m)
    (hw : m.field name = .ok w) : h.Unsealed w := by
  obtain rfl | ⟨i, hi⟩ := follow_of_field hm hw
  · exact .of_not_ref rfl
  · exact hu.part hi

structure Storable (h : Heap) (v : Value) : Prop where
  holds : h.Holds v
  unsealed : h.Unsealed v
  bounded : h.Bounded h.depths.resolve v
  copyable : h.Copyable v

theorem Copyable.of_not_ref (hv : v.asRef? = none) (hcopies : v.isCopyable = true) :
    h.Copyable v := by
  intro ρ w hw
  rwa [follow_of_not_ref hv hw]

theorem Bounded.follow (hb : h.Bounded n v) (hw : h.follow ρ v = some w) : h.Bounded n w where
  whole := hb.nested hw
  part σ x hne hx := by
    have hlonger : ρ ++ σ ≠ [] := fun he => hne (List.append_eq_nil_iff.1 he).2
    exact hb.part (ρ ++ σ) x hlonger (by rw [follow_append, hw]; exact hx)

namespace Storable

theorem follow (ht : h.Storable v) (hc : h.Closed) (hw : h.follow ρ v = some w) : h.Storable w :=
  ⟨hc.holds_follow ht.holds hw, ht.unsealed.part hw, ht.bounded.follow hw, ht.copyable.part hw⟩

theorem of_not_ref (hv : v.asRef? = none) (hcopies : v.isCopyable = true) : h.Storable v := by
  have hne : ∀ r, v ≠ .ref r := by
    intro r he
    subst he
    cases hv
  have htwo := h.depths.two_le_resolve
  refine ⟨holds_of_not_ref hne, .of_not_ref hv,
    ⟨nested_of_not_ref (Nat.zero_lt_of_lt htwo) hv, fun ρ w _ hw => ?_⟩, .of_not_ref hv hcopies⟩
  rw [follow_of_not_ref hv hw]
  exact nested_of_not_ref (Nat.sub_pos_of_lt htwo) hv

theorem field (ht : h.Storable v) (hc : h.Closed) (hm : h.mapping? v = some m)
    (hw : m.field name = .ok w) : h.Storable w := by
  obtain rfl | ⟨i, hi⟩ := follow_of_field hm hw
  · exact of_not_ref rfl rfl
  · exact ht.follow hc hi

theorem item (ht : h.Storable v) (hc : h.Closed) (hi : h.iterate v = .ok xs) (hx : x ∈ xs) :
    h.Storable x ∧ h.Nested (h.depths.resolve - 1) [] x := by
  obtain ⟨hx, hcopies⟩ | ⟨st, hst⟩ := follow_of_iterate ht.unsealed hi hx
  · exact ⟨of_not_ref hx hcopies, nested_of_not_ref (Nat.sub_pos_of_lt h.depths.two_le_resolve) hx⟩
  · exact ⟨ht.follow hc hst, ht.bounded.part _ x (List.cons_ne_nil st []) hst⟩

theorem mono (ht : h.Storable v) (hc : h.Closed) (he : h.Extends k) : k.Storable v := by
  have hfollow : ∀ ρ, k.follow ρ v = h.follow ρ v := fun ρ => he.follow_eq hc ht.holds
  have hbounded := ht.bounded
  rw [← he.depths] at hbounded
  refine ⟨he.holds ht.holds, ?_, ⟨he.nested hc ht.holds hbounded.whole, ?_⟩,
    he.copyable hc ht.holds ht.copyable⟩
  · intro r ks message hr
    rw [he.reaches_iff hc ht.holds] at hr
    rw [he.get?_eq (hc.reached ht.holds hr)]
    exact ht.unsealed r ks message hr
  · intro ρ w hne hw
    rw [hfollow] at hw
    exact he.nested hc (hc.holds_follow ht.holds hw) (hbounded.part ρ w hne hw)

end Storable

end Promptbook.Heap

import Promptbook.Proofs.Heap.Route
import Promptbook.Proofs.Placeholder

namespace Promptbook.Heap

variable {h k : Heap} {v x : Value} {xs : List Value} {es : List (Value × Value)} {r : Ref}
  {node : Node}

theorem holds_of_not_ref (hv : ∀ r, v ≠ .ref r) : h.Holds v :=
  fun r hr => absurd hr (hv r)

theorem holds_text (h : Heap) (s : String) : h.Holds (.text s) :=
  holds_of_not_ref fun _ => (fun he => by cases he)

theorem Extends.size_le (he : h.Extends k) : h.nodes.size ≤ k.nodes.size := by
  cases hs : h.nodes.size with
  | zero => exact Nat.zero_le _
  | succ n =>
    have hlt : n < h.nodes.size := hs ▸ Nat.lt_succ_self n
    have hr : h.get? ⟨n⟩ = some h.nodes[n] := Array.getElem?_eq_getElem hlt
    exact (Array.getElem?_eq_some_iff.1 (he.keeps hr)).1

theorem size_alloc (h : Heap) (node : Node) :
    (h.alloc node).2.nodes.size = h.nodes.size + 1 := by
  simp [alloc]

namespace Extends

variable (he : h.Extends k)
include he

theorem get?_eq (hr : ∃ node, h.get? r = some node) : k.get? r = h.get? r := by
  obtain ⟨node, hn⟩ := hr
  rw [hn, he.keeps hn]

theorem node?_eq (hv : h.Holds v) : k.node? v = h.node? v := by
  cases v <;> try rfl
  exact he.get?_eq (hv _ rfl)

theorem mapping?_eq (hv : h.Holds v) : k.mapping? v = h.mapping? v := by
  simp only [mapping?, he.node?_eq hv]

theorem inside?_eq (hv : h.Holds v) : k.inside? v = h.inside? v := by
  simp only [inside?, he.node?_eq hv]

theorem typeName_eq (hv : h.Holds v) : k.typeName v = h.typeName v := by
  cases v <;> try rfl
  simp only [typeName, he.get?_eq (hv _ rfl)]

theorem shortTypeName_eq (hv : h.Holds v) : k.shortTypeName v = h.shortTypeName v := by
  cases v <;> first | rfl | exact he.typeName_eq hv

theorem memberName_eq (hv : h.Holds v) : k.memberName v = h.memberName v := by
  cases v <;> try rfl
  simp only [memberName, Value.asText?_ref, he.shortTypeName_eq hv]

theorem follow_eq {ρ : List Step} (hc : h.Closed) (hv : h.Holds v) :
    k.follow ρ v = h.follow ρ v := by
  induction ρ generalizing v with
  | nil => rfl
  | cons st ρ ih =>
    rw [Heap.follow, Heap.follow, he.node?_eq hv]
    cases hn : h.node? v with
    | none => rfl
    | some node =>
      obtain ⟨r, rfl, hr⟩ := exists_of_node? hn
      rw [Option.bind_some]
      cases hx : node.step? st with
      | none => rfl
      | some x => exact ih (hc.holds_step hr hx)

theorem reaches_iff (hc : h.Closed) (hv : h.Holds v) : k.Reaches v r ↔ h.Reaches v r := by
  simp only [Reaches, he.follow_eq hc hv]

theorem enters_iff (hc : h.Closed) (hv : h.Holds v) : k.Enters v r ↔ h.Enters v r := by
  simp only [Enters, he.follow_eq hc hv]

theorem quoteWithin_eq (hc : h.Closed) (n : Nat) (active : List Ref) (hv : h.Holds v) :
    k.quoteWithin n active v = h.quoteWithin n active v := by
  induction n generalizing active v with
  | zero => rfl
  | succ n ih =>
    cases v <;> try rfl
    rename_i r
    obtain ⟨node, hr⟩ := hv r rfl
    have hx : ∀ x ∈ node.elements,
        k.quoteWithin n (r :: active) x = h.quoteWithin n (r :: active) x :=
      fun x hx => ih _ (hc.holds_element hr hx)
    simp only [quoteWithin, he.keeps hr, hr]
    by_cases ha : r ∈ active
    · simp only [ha, ↓reduceIte]
    · simp only [ha, ↓reduceIte]
      cases node with
      | list xs =>
        change ∀ x ∈ xs, _ at hx
        simp only [eachOk_congr hx]
      | tuple xs =>
        change ∀ x ∈ xs, _ at hx
        rcases xs with _ | ⟨x, _ | ⟨y, xs⟩⟩
        · rfl
        · simp only [hx x (List.mem_singleton_self x)]
        · simp only [eachOk_congr hx]
      | set xs =>
        change ∀ x ∈ xs, _ at hx
        cases xs with
        | nil => rfl
        | cons x xs => simp only [eachOk_congr hx]
      | dict es =>
        have hes : ∀ e ∈ es, _ := fun e hm =>
          And.intro (hx e.1 (Node.mem_elements_entry hm).1) (hx e.2 (Node.mem_elements_entry hm).2)
        simp only []
        rw [eachOk_congr fun e hm => by rw [(hes e hm).1, (hes e hm).2]]
      | sealed ks msg => rfl

theorem text_eq (hc : h.Closed) (hv : h.Holds v) : k.text v = h.text v := by
  cases v <;> first | rfl | exact he.quoteWithin_eq hc _ _ hv

theorem hasCycleWithin_eq (hc : h.Closed) (n : Nat) (ancestors : List Ref) (hv : h.Holds v) :
    k.hasCycleWithin n ancestors v = h.hasCycleWithin n ancestors v := by
  induction n generalizing ancestors v with
  | zero => rfl
  | succ n ih =>
    cases v <;> try rfl
    rename_i r
    obtain ⟨node, hr⟩ := hv r rfl
    have hx : ∀ x ∈ node.elements,
        k.hasCycleWithin n (r :: ancestors) x = h.hasCycleWithin n (r :: ancestors) x :=
      fun x hx => ih _ (hc.holds_element hr hx)
    simp only [hasCycleWithin, he.inside?_eq hv]
    simp only [inside?, node?_ref, hr, Value.asRef?]
    cases node with
    | list xs =>
      change ∀ x ∈ xs, _ at hx
      simp only [bind, Except.bind, anyOk_congr hx]
    | tuple xs =>
      change ∀ x ∈ xs, _ at hx
      simp only [bind, Except.bind, anyOk_congr hx]
    | set xs => rfl
    | dict es =>
      have hes : ∀ x ∈ es.map (·.2),
          k.hasCycleWithin n (r :: ancestors) x = h.hasCycleWithin n (r :: ancestors) x := by
        intro x hm
        obtain ⟨e, hes, rfl⟩ := List.mem_map.1 hm
        exact hx e.2 (Node.mem_elements_entry hes).2
      simp only [bind, Except.bind, anyOk_congr hes]
    | sealed ks msg => cases ks <;> rfl

theorem hasCycle_eq (hc : h.Closed) (hv : h.Holds v) : k.hasCycle v = h.hasCycle v := by
  rw [hasCycle_eq_within, hasCycle_eq_within, he.depths]
  exact he.hasCycleWithin_eq hc _ [] hv

theorem standInNull_eq (hc : h.Closed) (hv : h.Holds v) : k.standInNull v = h.standInNull v := by
  cases v <;> first | rfl | simp only [standInNull, he.text_eq hc hv]

theorem toJsonWithin_eq (hc : h.Closed) (n : Nat) (ancestors : List Ref) (hv : h.Holds v) :
    k.toJsonWithin k.standInNull n ancestors v = h.toJsonWithin h.standInNull n ancestors v := by
  induction n generalizing ancestors v with
  | zero => simp only [toJsonWithin]
  | succ n ih =>
    simp only [toJsonWithin, he.node?_eq hv, he.standInNull_eq hc hv]
    cases hl : leafJson? v with
    | some result => rfl
    | none =>
      simp only []
      cases hr : v.asRef? with
      | none => rfl
      | some r =>
        obtain rfl := Value.asRef?_eq_some.1 hr
        obtain ⟨node, hr⟩ := hv r rfl
        have hx : ∀ x ∈ node.elements, k.toJsonWithin k.standInNull n (r :: ancestors) x =
            h.toJsonWithin h.standInNull n (r :: ancestors) x :=
          fun x hx => ih _ (hc.holds_element hr hx)
        simp only [node?_ref, hr]
        cases node with
        | list xs =>
          change ∀ x ∈ xs, _ at hx
          simp only [eachOk_congr hx]
        | tuple xs =>
          change ∀ x ∈ xs, _ at hx
          simp only [eachOk_congr hx]
        | set xs => rfl
        | dict es =>
          have hes : ∀ e ∈ es, _ := fun e hm =>
            And.intro (he.memberName_eq (hc.holds_entry hr hm).1)
              (hx e.2 (Node.mem_elements_entry hm).2)
          simp only []
          rw [eachOk_congr fun e hm => by rw [(hes e hm).1, (hes e hm).2]]
        | sealed ks msg => rfl

theorem render_eq (hc : h.Closed) (hv : h.Holds v) : k.render v = h.render v := by
  cases v <;> try rfl
  simp only [render, Value.asText?_ref, he.inside?_eq hv, he.hasCycle_eq hc hv, toJson,
    he.depths, he.toJsonWithin_eq hc _ _ hv, he.text_eq hc hv]

end Extends

theorem Closed.holds_get (hc : h.Closed) {m : Mapping} {name : String} {w : Value}
    (hm : h.mapping? v = some m) (hw : m.get name = .ok (some w)) : h.Holds w := by
  simp only [mapping?] at hm
  split at hm
  · rename_i es hn
    cases hm
    obtain ⟨r, rfl, hr⟩ := exists_of_node? hn
    simp only [Mapping.get, lookupText, Except.ok.injEq, Option.map_eq_some_iff] at hw
    obtain ⟨e, hf, rfl⟩ := hw
    exact (hc.holds_entry hr (List.mem_of_find?_eq_some hf)).2
  · cases hm
    cases hw
  · cases hm

theorem Extends.walk_eq (he : h.Extends k) (hc : h.Closed) (names : List String)
    (hv : h.Holds v) : k.walk names v = h.walk names v := by
  induction names generalizing v with
  | nil => rfl
  | cons name names ih =>
    simp only [walk, he.mapping?_eq hv]
    cases hm : h.mapping? v with
    | none => rfl
    | some m =>
      simp only []
      split
      · cases hg : m.get name with
        | error e => rfl
        | ok o =>
          cases o with
          | none => rfl
          | some w => exact ih (hc.holds_get hm hg)
      · rfl

theorem Closed.holds_walk (hc : h.Closed) {names : List String} {w : Value} (hv : h.Holds v)
    (hw : h.walk names v = .ok (some w)) : h.Holds w := by
  induction names generalizing v with
  | nil =>
    cases hw
    exact hv
  | cons name names ih =>
    simp only [walk] at hw
    split at hw
    · cases hw
    · rename_i m hm
      split at hw
      · cases hg : m.get name with
        | error e => rw [hg] at hw; cases hw
        | ok o =>
          rw [hg] at hw
          cases o with
          | none => cases hw
          | some u => exact ih (hc.holds_get hm hg) hw
      · cases hw

theorem Extends.written_eq (he : h.Extends k) (hc : h.Closed) {values : Value}
    (hv : h.Holds values) (path : String) : k.written values path = h.written values path := by
  have hl : k.lookup path values = h.lookup path values := he.walk_eq hc _ hv
  rw [written, written, hl]
  rcases hw : h.lookup path values with e | _ | w
  · simp only [bind, Except.bind]
  · simp only [ok_bind]
  · simp only [ok_bind, he.render_eq hc (hc.holds_walk hv hw)]

theorem Extends.substitute_eq (he : h.Extends k) (hc : h.Closed) {values : Value}
    (hv : h.Holds values) (s : String) : k.substitute values s = h.substitute values s :=
  substitute_eq_of_written fun path _ => he.written_eq hc hv path

/-- Containers were added to a heap, and no container refers to one that is not there. -/
structure Adds (h k : Heap) : Prop where
  keeps : h.Extends k
  closed : k.Closed

theorem Adds.refl (hc : h.Closed) : h.Adds h := ⟨.refl h, hc⟩

theorem Adds.trans {l : Heap} (hk : h.Adds k) (hl : k.Adds l) : h.Adds l :=
  ⟨hk.keeps.trans hl.keeps, hl.closed⟩

theorem Adds.store {node : Node} (hc : h.Closed) (hn : ∀ v ∈ node.elements, h.Holds v) :
    h.Adds (h.store node).2 :=
  ⟨.alloc h node, hc.alloc hn⟩

theorem holds_store (h : Heap) (node : Node) : (h.store node).2.Holds (h.store node).1 := by
  intro r hr
  cases hr
  exact ⟨node, get?_alloc h node⟩

/-- At most containers that are lent changed, none was added, and lists are lists still. -/
structure Reworks (lent : Ref → Bool) (h k : Heap) : Prop where
  depths : k.depths = h.depths
  size : k.nodes.size = h.nodes.size
  spared : ∀ r, lent r = false → k.get? r = h.get? r
  lists : ∀ r xs, h.get? r = some (.list xs) → ∃ ys, k.get? r = some (.list ys)
  closed : h.Closed → k.Closed

namespace Reworks

variable {lent : Ref → Bool} {l : Heap}

theorem refl (lent : Ref → Bool) (h : Heap) : Reworks lent h h :=
  ⟨rfl, rfl, fun _ _ => rfl, fun _ xs hr => ⟨xs, hr⟩, id⟩

theorem trans (hk : Reworks lent h k) (hl : Reworks lent k l) : Reworks lent h l where
  depths := hl.depths.trans hk.depths
  size := hl.size.trans hk.size
  spared r hr := (hl.spared r hr).trans (hk.spared r hr)
  lists r xs hr := by
    obtain ⟨ys, hys⟩ := hk.lists r xs hr
    exact hl.lists r ys hys
  closed := hl.closed ∘ hk.closed

theorem rework (h : Heap) (lent : Ref → Bool) (r : Ref) (node : Node) :
    Reworks lent h (h.rework lent r node) := by
  rw [Heap.rework]
  split
  · next hallowed =>
    simp only [Bool.and_eq_true, List.all_eq_true] at hallowed
    obtain ⟨⟨hlent, hbecomes⟩, hheld⟩ := hallowed
    refine ⟨rfl, Array.size_setIfInBounds, fun q hq => get?_set_of_ne ?_, fun q xs hq => ?_,
      fun hc => hc.set fun v hv q heq => ?_⟩
    · rintro rfl
      exact Bool.false_ne_true (hq.symm.trans hlent)
    · by_cases hrq : r = q
      · subst hrq
        rw [hq, Option.any_some] at hbecomes
        cases node with
        | list ys => exact ⟨ys, get?_set_self hq⟩
        | _ => cases hbecomes
      · exact ⟨xs, (get?_set_of_ne hrq).trans hq⟩
    · subst heq
      exact Option.isSome_iff_exists.1 (hheld _ hv)
  · exact .refl lent h

theorem rework_of_allowed {own : Ref → Bool} {r : Ref} (h : Heap) (lent : Ref → Bool) (node : Node)
    (hr : own r = true) : Reworks own h (h.rework lent r node) := by
  have hk := rework h lent r node
  refine ⟨hk.depths, hk.size, fun q hq => ?_, hk.lists, hk.closed⟩
  have hrq : r ≠ q := by
    rintro rfl
    exact Bool.false_ne_true (hq.symm.trans hr)
  rw [Heap.rework]
  split
  · exact get?_set_of_ne hrq
  · rfl

theorem eq_of_none (hk : Reworks (fun _ => false) h k) : k = h := by
  obtain ⟨nodes, depths⟩ := h
  obtain ⟨nodes', depths'⟩ := k
  refine Heap.mk.injEq .. ▸ ⟨Array.ext hk.size fun i hi hi' => ?_, hk.depths⟩
  have hget : nodes'[i]? = nodes[i]? := hk.spared ⟨i⟩ rfl
  rw [Array.getElem?_eq_getElem hi, Array.getElem?_eq_getElem hi'] at hget
  exact Option.some.inj hget

theorem keeps (hk : Reworks lent h k) (he : l.Extends h)
    (hnew : ∀ r, lent r = true → l.get? r = none) : l.Extends k := by
  refine ⟨hk.depths.trans he.depths, fun {r node} hr => ?_⟩
  have hlent : lent r = false := by
    rw [Bool.eq_false_iff]
    intro hlent
    cases (hnew r hlent).symm.trans hr
  exact (hk.spared r hlent).trans (he.keeps hr)

end Reworks

/-- What is lent was added, so that a change of it adds to what was there before. -/
theorem Adds.reworks {lent : Ref → Bool} {l : Heap} (hk : h.Adds k) (hl : k.Reworks lent l)
    (hnew : ∀ r, lent r = true → h.get? r = none) : h.Adds l :=
  ⟨hl.keeps hk.keeps hnew, hl.closed hk.closed⟩

end Promptbook.Heap

import Promptbook.Proofs.Heap.Nested

namespace Promptbook

namespace Node

variable {node : Node} {m : Ref → Ref} {v : Value}

theorem elements_map (m : Ref → Ref) (node : Node) :
    (node.map m).elements = node.elements.map (Value.map m) := by
  cases node <;> simp [map, elements, List.flatMap_map, List.map_flatMap]

def steps : Node → List Step
  | list xs => (List.range xs.length).map .slot
  | tuple xs | set xs => (List.range xs.length).map .hidden
  | dict es => (List.range es.length).flatMap fun i => [.slot i, .hidden i]
  | sealed .. => []

theorem mem_steps {st : Step} (hv : node.step? st = some v) : st ∈ node.steps := by
  have hlt {i : Nat} {α : Type} {xs : List α} {x : α} (hi : xs[i]? = some x) :
      i ∈ List.range xs.length :=
    List.mem_range.2 (List.getElem?_eq_some_iff.1 hi).1
  cases node <;> cases st <;>
    simp only [step?, slot?, hidden?, Option.map_eq_some_iff, reduceCtorEq] at hv
  case dict.slot es i =>
    obtain ⟨e, he, -⟩ := hv
    exact List.mem_flatMap.2 ⟨i, hlt he, by simp⟩
  case dict.hidden es i =>
    obtain ⟨e, he, -⟩ := hv
    exact List.mem_flatMap.2 ⟨i, hlt he, by simp⟩
  all_goals exact List.mem_map_of_mem (hlt hv)

end Node

namespace Heap

variable {h k : Heap} {m : Ref → Ref} {u v w x : Value} {b c q r : Ref} {node : Node} {n n' : Nat}
  {st : Step} {ρ σ : List Step}

/-- No route from a value is as long as a limit; in particular none leads back to where it was. -/
def Within (h : Heap) : Nat → Value → Prop
  | 0, _ => False
  | n + 1, v => ∀ r node, v = .ref r → h.get? r = some node → ∀ x ∈ node.elements, h.Within n x

theorem within_succ_of_not_ref (hv : v.asRef? = none) : h.Within (n + 1) v := by
  intro r node heq
  subst heq
  cases hv

theorem within_succ_iff (hr : h.get? r = some node) :
    h.Within (n + 1) (.ref r) ↔ ∀ x ∈ node.elements, h.Within n x := by
  constructor
  · exact fun hw => hw r node rfl hr
  · rintro hw _ node' ⟨⟩ hr'
    obtain rfl : node = node' := Option.some.inj (hr.symm.trans hr')
    exact hw

instance decidableWithin (h : Heap) : ∀ n v, Decidable (h.Within n v)
  | 0, _ => .isFalse id
  | n + 1, v =>
    match hv : v.asRef? with
    | none => .isTrue (within_succ_of_not_ref hv)
    | some r =>
      match hr : h.get? r with
      | none => .isTrue fun q node hq hn => by
          rw [hq] at hv
          cases hv
          rw [hr] at hn
          cases hn
      | some node =>
        have (x : Value) := decidableWithin h n x
        decidable_of_iff (∀ x ∈ node.elements, h.Within n x)
          (Value.asRef?_eq_some.1 hv ▸ (within_succ_iff hr).symm)

theorem Within.mono (hw : h.Within n v) (hle : n ≤ n') : h.Within n' v := by
  induction n generalizing n' v with
  | zero => exact hw.elim
  | succ n ih =>
    obtain ⟨n', rfl⟩ := Nat.exists_eq_succ_of_ne_zero (Nat.ne_zero_of_lt hle)
    exact fun r node hv hr x hx => ih (hw r node hv hr x hx) (Nat.le_of_succ_le_succ hle)

theorem Within.nested (hw : h.Within n v) (entered : List Ref) : h.Nested n entered v := by
  induction n generalizing entered v with
  | zero => exact hw.elim
  | succ n ih => exact fun r node hv _ hr x hx => ih (hw r node hv hr x hx) _

theorem Within.follow (hw : h.Within n v) (hx : h.follow ρ v = some x) :
    h.Within (n - ρ.length) x := by
  induction ρ generalizing n v with
  | nil =>
    cases hx
    exact hw
  | cons st ρ ih =>
    obtain ⟨r, node, u, rfl, hr, hu, hx⟩ := follow_cons_eq_some.1 hx
    cases n with
    | zero => exact hw.elim
    | succ n =>
      rw [List.length_cons, Nat.add_sub_add_right]
      exact ih (hw r node rfl hr u (Node.mem_elements.2 ⟨st, hu⟩)) hx

theorem Within.acyclic (hw : h.Within n (.ref r)) :
    h.follow (st :: ρ) (.ref r) ≠ some (.ref r) := by
  induction n using Nat.strongRecOn with
  | ind n ih =>
    intro hr
    cases n with
    | zero => exact hw.elim
    | succ n =>
      have hlt : n + 1 - (st :: ρ).length < n + 1 := by
        rw [List.length_cons]
        omega
      exact ih _ hlt (hw.follow hr) hr

theorem Extends.within (he : h.Extends k) (hc : h.Closed) (hv : h.Holds v) (hw : h.Within n v) :
    k.Within n v := by
  induction n generalizing v with
  | zero => exact hw.elim
  | succ n ih =>
    rintro r node rfl hr x hx
    obtain ⟨node', hr'⟩ := hv r rfl
    obtain rfl : node' = node := Option.some.inj ((he.keeps hr').symm.trans hr)
    exact ih (hc.holds_element hr' hx) (hw r node' rfl hr' x hx)

def routes (h : Heap) : Nat → Value → List (List Step × Value)
  | 0, _ => []
  | n + 1, v => ([], v) :: (h.node? v).toList.flatMap fun node => node.steps.flatMap fun st =>
      (node.step? st).toList.flatMap fun u => (routes h n u).map fun e => (st :: e.1, e.2)

theorem Within.mem_routes (hw : h.Within n v) :
    (ρ, w) ∈ h.routes n v ↔ h.follow ρ v = some w := by
  induction n generalizing v ρ with
  | zero => exact hw.elim
  | succ n ih =>
    have hnext {r node st u} (hr : v = .ref r) (hn : h.get? r = some node)
        (hu : node.step? st = some u) : h.Within n u :=
      hw r node hr hn u (Node.mem_elements.2 ⟨st, hu⟩)
    simp only [routes, List.mem_cons, Prod.mk.injEq, List.mem_flatMap, Option.mem_toList,
      List.mem_map, Prod.exists]
    constructor
    · rintro (⟨rfl, rfl⟩ | ⟨node, hn, st, -, u, hu, ρ, _, hmem, rfl, rfl⟩)
      · rfl
      · obtain ⟨r, rfl, hr⟩ := exists_of_node? hn
        exact follow_cons_eq_some.2 ⟨r, node, u, rfl, hr, hu, (ih (hnext rfl hr hu)).1 hmem⟩
    · intro hf
      cases ρ with
      | nil => exact .inl ⟨rfl, (Option.some.inj hf).symm⟩
      | cons st ρ =>
        obtain ⟨r, node, u, rfl, hr, hu, hf⟩ := follow_cons_eq_some.1 hf
        exact .inr ⟨node, hr, st, Node.mem_steps hu, u, hu, ρ, w, (ih (hnext rfl hr hu)).2 hf, rfl,
          rfl⟩

/-- A value stands a second time in a heap with every alias of a list or dictionary replaced by a
copy of its own: `m` leads each container of the expansion to the one it was copied from, and no
list or dictionary of the expansion has two routes to it. -/
structure Expands (h : Heap) (m : Ref → Ref) (b c : Ref) : Prop where
  root : m c = b
  origin : ∀ r node, h.Reaches (.ref c) r → h.get? r = some node → h.get? (m r) = some (node.map m)
  unshared : ∀ ρ σ r node, h.follow ρ (.ref c) = some (.ref r) →
    h.follow σ (.ref c) = some (.ref r) → h.open? r = some node → ρ = σ

theorem Within.expands_iff (hw : h.Within n (.ref c)) :
    h.Expands m b c ↔ m c = b ∧ (∀ e ∈ h.routes n (.ref c), ∀ r ∈ e.2.asRef?,
      ∀ node ∈ h.get? r, h.get? (m r) = some (node.map m)) ∧
      ∀ e ∈ h.routes n (.ref c), ∀ e' ∈ h.routes n (.ref c), e.2 = e'.2 → ∀ r ∈ e.2.asRef?,
        ∀ _node ∈ h.open? r, e.1 = e'.1 := by
  constructor
  · rintro ⟨hroot, horigin, hunshared⟩
    refine ⟨hroot, ?_, ?_⟩
    · rintro ⟨ρ, v⟩ he r hr node hn
      obtain rfl := Value.asRef?_eq_some.1 hr
      exact horigin r node ⟨ρ, hw.mem_routes.1 he⟩ hn
    · rintro ⟨ρ, v⟩ he ⟨σ, _⟩ he' ⟨⟩ r hr node hn
      obtain rfl := Value.asRef?_eq_some.1 hr
      exact hunshared ρ σ r node (hw.mem_routes.1 he) (hw.mem_routes.1 he') hn
  · rintro ⟨hroot, horigin, hunshared⟩
    refine ⟨hroot, ?_, fun ρ σ r node hρ hσ hn => ?_⟩
    · rintro r node ⟨ρ, hρ⟩ hn
      exact horigin _ (hw.mem_routes.2 hρ) r rfl node hn
    · exact hunshared _ (hw.mem_routes.2 hρ) _ (hw.mem_routes.2 hσ) rfl r rfl node hn

namespace Expands

variable (hx : h.Expands m b c) (hc : h.Closed) (hh : h.Holds (.ref c))
include hx hc hh

theorem get?_image (hr : h.Reaches (.ref c) r) : h.get? (m r) = (h.get? r).map (Node.map m) := by
  obtain ⟨node, hn⟩ := hc.reached hh hr
  rw [hx.origin r node hr hn, hn, Option.map_some]

theorem node?_image (hv : ∀ r, v = .ref r → h.Reaches (.ref c) r) :
    h.node? (v.map m) = (h.node? v).map (Node.map m) := by
  cases v with
  | ref r => exact hx.get?_image hc hh (hv r rfl)
  | _ => rfl

omit hx hc hh in
theorem reaches_step (hr : h.Reaches (.ref c) r) (hn : h.get? r = some node)
    (hu : node.step? st = some u) : ∀ q, u = .ref q → h.Reaches (.ref c) q := by
  intro q heq
  subst heq
  exact hr.tail hn hu

omit hx hc hh in
theorem reaches_slot {i : Nat} (hr : h.Reaches (.ref c) r) (hn : h.get? r = some node)
    (hu : node.slot? i = some u) : ∀ q, u = .ref q → h.Reaches (.ref c) q := by
  have hstep : node.step? (.slot i) = some u := hu
  exact reaches_step hr hn hstep

theorem follow_image (hv : ∀ r, v = .ref r → h.Reaches (.ref c) r) :
    h.follow ρ (v.map m) = (h.follow ρ v).map (Value.map m) := by
  induction ρ generalizing v with
  | nil => rfl
  | cons st ρ ih =>
    rw [Heap.follow, Heap.follow, hx.node?_image hc hh hv]
    cases hn : h.node? v with
    | none => rfl
    | some node =>
      obtain ⟨r, rfl, hr⟩ := exists_of_node? hn
      rw [Option.map_some, Option.bind_some, Option.bind_some, Node.step?_map]
      cases hu : node.step? st with
      | none => rfl
      | some u => exact ih (reaches_step (hv r rfl) hr hu)

theorem follow_root : h.follow ρ (.ref b) = (h.follow ρ (.ref c)).map (Value.map m) := by
  have := hx.follow_image hc hh (ρ := ρ) (v := .ref c) (by
    intro _ heq
    cases heq
    exact .refl h c)
  rwa [Value.map_ref, hx.root] at this

theorem exists_of_follow (hr : h.follow ρ (.ref b) = some (.ref r)) :
    ∃ q, m q = r ∧ h.follow ρ (.ref c) = some (.ref q) := by
  rw [hx.follow_root hc hh, Option.map_eq_some_iff] at hr
  obtain ⟨v, hv, he⟩ := hr
  cases v <;> cases he
  exact ⟨_, rfl, hv⟩

theorem follow_of_exists (hq : h.follow ρ (.ref c) = some (.ref q)) :
    h.follow ρ (.ref b) = some (.ref (m q)) := by
  rw [hx.follow_root hc hh, hq]
  rfl

theorem open?_image (hr : h.Reaches (.ref c) r) :
    h.open? (m r) = (h.open? r).map (Node.map m) := by
  rw [open?, open?, hx.get?_image hc hh hr]
  cases h.get? r with
  | none => rfl
  | some node => cases ho : node.isOpen <;> simp [Option.filter, ho]

omit hc hh in
theorem within_image (hv : ∀ r, v = .ref r → h.Reaches (.ref c) r) (hw : h.Within n (v.map m)) :
    h.Within n v := by
  induction n generalizing v with
  | zero => exact hw.elim
  | succ n ih =>
    rintro r node rfl hr x hmem
    obtain ⟨st, hst⟩ := Node.mem_elements.1 hmem
    refine ih (reaches_step (hv r rfl) hr hst) (hw (m r) (node.map m) rfl
      (hx.origin r node (hv r rfl) hr) (x.map m) ?_)
    rw [Node.elements_map]
    exact List.mem_map_of_mem hmem

end Expands

end Heap

end Promptbook

import Promptbook.Proofs.Heap.Expansion
import Promptbook.Proofs.Heap.Frame

namespace Promptbook

namespace Node

variable {node : Node} {m : Ref → Ref} {ws : List Value} {u v : Value} {st st' : Step}

def position : Node → Step → Nat
  | dict _, .slot i => 2 * i + 1
  | dict _, .hidden i => 2 * i
  | _, .slot i => i
  | _, .hidden i => i

theorem getElem?_entries (es : List (Value × Value)) (i : Nat) :
    (dict es).elements[2 * i]? = es[i]?.map (·.1) ∧
      (dict es).elements[2 * i + 1]? = es[i]?.map (·.2) := by
  induction es generalizing i with
  | nil => exact ⟨rfl, rfl⟩
  | cons e es ih =>
    cases i with
    | zero => exact ⟨rfl, rfl⟩
    | succ i => exact ih i

theorem getElem?_position (hv : node.step? st = some v) :
    node.elements[node.position st]? = some v := by
  cases node <;> cases st <;>
    simp only [step?, slot?, hidden?, reduceCtorEq] at hv
  case dict.slot es i => exact (getElem?_entries es i).2.trans hv
  case dict.hidden es i => exact (getElem?_entries es i).1.trans hv
  all_goals exact hv

theorem position_injective (hu : node.step? st = some u) (hv : node.step? st' = some v)
    (he : node.position st = node.position st') : st = st' := by
  cases node <;> cases st <;> cases st' <;>
    simp only [step?, slot?, hidden?, reduceCtorEq] at hu hv <;>
    simp only [position] at he <;> first | rw [he] | omega | (congr 1; omega)

theorem exists_of_elements (hws : ws.map (Value.map m) = node.elements) :
    ∃ node' : Node, node'.elements = ws ∧ node'.map m = node := by
  cases node with
  | list xs => exact ⟨list ws, rfl, congrArg list hws⟩
  | tuple xs => exact ⟨tuple ws, rfl, congrArg tuple hws⟩
  | set xs => exact ⟨set ws, rfl, congrArg set hws⟩
  | dict es =>
    have hes : ∃ es' : List (Value × Value), (dict es').elements = ws ∧
        (es'.map fun e => (e.1.map m, e.2.map m)) = es := by
      induction es generalizing ws with
      | nil => exact ⟨[], (List.map_eq_nil_iff.1 hws).symm, rfl⟩
      | cons e es ih =>
        obtain ⟨key, rest, rfl, hkey, hrest⟩ := List.map_eq_cons_iff.1 hws
        obtain ⟨x, rest, rfl, hx, hrest⟩ := List.map_eq_cons_iff.1 hrest
        obtain ⟨es', hes', rfl⟩ := ih hrest
        refine ⟨(key, x) :: es', congrArg (key :: x :: ·) hes', ?_⟩
        rw [List.map_cons, hkey, hx]
    obtain ⟨es', hes', rfl⟩ := hes
    exact ⟨dict es', hes', rfl⟩
  | sealed ks msg => exact ⟨sealed ks msg, (List.map_eq_nil_iff.1 hws).symm, rfl⟩

end Node

namespace Heap

variable {h k k' : Heap} {m m' : Ref → Ref} {v w : Value} {vs ws : List Value} {b q r : Ref}
  {node : Node} {n : Nat}

/-- Values of a heap stand a second time in a larger one, each container that they lead to once for
each route. -/
structure Unfolds (h : Heap) (vs : List Value) (k : Heap) (m : Ref → Ref) (ws : List Value) :
    Prop where
  keeps : h.Extends k
  closed : k.Closed
  holds : ∀ w ∈ ws, k.Holds w
  source : ws.map (Value.map m) = vs
  fresh : ∀ w ∈ ws, ∀ r, k.Reaches w r → h.get? r = none
  origin : ∀ w ∈ ws, ∀ r node, k.Reaches w r → k.get? r = some node →
    k.get? (m r) = some (node.map m)
  unshared : ∀ w ∈ ws, ∀ ρ σ r, k.follow ρ w = some (.ref r) → k.follow σ w = some (.ref r) → ρ = σ
  apart : ws.Pairwise fun u v => ∀ r, k.Reaches u r → ¬ k.Reaches v r

namespace Unfolds

theorem nil (hc : h.Closed) : Unfolds h [] h id [] :=
  ⟨.refl h, hc, List.forall_mem_nil _, rfl, List.forall_mem_nil _, List.forall_mem_nil _,
    List.forall_mem_nil _, .nil⟩

theorem leaf (hc : h.Closed) (hv : v.asRef? = none) : Unfolds h [v] h id [v] := by
  have hfollow {ρ r} : h.follow ρ v ≠ some (.ref r) := by
    intro hr
    cases ρ with
    | nil =>
      cases hr
      cases hv
    | cons st ρ =>
      obtain ⟨_, _, _, rfl, -⟩ := follow_cons_eq_some.1 hr
      cases hv
  refine ⟨.refl h, hc, List.forall_mem_singleton.2 ?_, ?_, List.forall_mem_singleton.2 ?_,
    List.forall_mem_singleton.2 ?_, List.forall_mem_singleton.2 ?_, List.pairwise_singleton _ _⟩
  · intro r heq
    subst heq
    cases hv
  · exact congrArg (fun u => [u]) (Value.map_eq_self fun _ _ => rfl)
  · rintro r ⟨ρ, hρ⟩
    exact absurd hρ hfollow
  · rintro r node ⟨ρ, hρ⟩
    exact absurd hρ hfollow
  · exact fun ρ _ r hρ => absurd hρ hfollow

theorem map_eq_of_holds (hagree : ∀ r node, k.get? r = some node → m r = m' r) (hw : k.Holds w) :
    w.map m = w.map m' := by
  apply Value.map_congr
  intro r hr
  obtain ⟨node, hn⟩ := hw r hr
  exact hagree r node hn

theorem node_map_eq_of_held (hagree : ∀ r node, k.get? r = some node → m r = m' r)
    (hc : k.Closed) (hr : k.get? r = some node) : node.map m = node.map m' :=
  Node.map_congr fun _ hv => map_eq_of_holds hagree (hc.holds_element hr hv)

theorem cons (hv : Unfolds h [v] k m [w]) (hvs : Unfolds k vs k' m' ws) :
    Unfolds h (v :: vs) k' (fun r => if (k.get? r).isSome then m r else m' r) (w :: ws) := by
  have hw : k.Holds w := hv.holds w (List.mem_singleton_self w)
  have he := hvs.keeps
  have hreach (r : Ref) : k'.Reaches w r ↔ k.Reaches w r := he.reaches_iff hv.closed hw
  have hleft : ∀ r node, k.get? r = some node →
      (if (k.get? r).isSome then m r else m' r) = m r := by
    intro r node hr
    rw [hr, Option.isSome_some, if_pos rfl]
  have hright : ∀ r, k.get? r = none → (if (k.get? r).isSome then m r else m' r) = m' r := by
    intro r hr
    rw [hr, Option.isSome_none, if_neg Bool.false_ne_true]
  refine ⟨hv.keeps.trans he, hvs.closed, ?_, ?_, ?_, ?_, ?_, ?_⟩
  · exact List.forall_mem_cons.2 ⟨he.holds hw, hvs.holds⟩
  · have hsource : w.map m = v := (List.cons.injEq .. ▸ hv.source).1
    rw [List.map_cons, map_eq_of_holds hleft hw, hsource, ← hvs.source]
    refine congrArg (v :: ·) (List.map_congr_left fun u hu => Value.map_congr ?_)
    intro r heq
    subst heq
    exact hright r (hvs.fresh _ hu r (.refl k' r))
  · refine List.forall_mem_cons.2 ⟨fun r hr => ?_, fun u hu r hr => ?_⟩
    · exact hv.fresh w (List.mem_singleton_self w) r ((hreach r).1 hr)
    · exact get?_eq_none_of_extends hv.keeps (hvs.fresh u hu r hr)
  · refine List.forall_mem_cons.2 ⟨fun r node hr hn => ?_, fun u hu r node hr hn => ?_⟩
    · have hr' := (hreach r).1 hr
      rw [he.get?_eq (hv.closed.reached hw hr')] at hn
      simp only [hleft r node hn]
      rw [node_map_eq_of_held hleft hv.closed hn]
      exact he.keeps (hv.origin w (List.mem_singleton_self w) r node hr' hn)
    · simp only [hright r (hvs.fresh u hu r hr)]
      rw [hvs.origin u hu r node hr hn]
      refine congrArg some (Node.map_congr fun x hx => Value.map_congr ?_)
      intro q heq
      subst heq
      obtain ⟨st, hst⟩ := Node.mem_elements.1 hx
      exact (hright q (hvs.fresh u hu q (hr.tail hn hst))).symm
  · refine List.forall_mem_cons.2 ⟨fun ρ σ r hρ hσ => ?_, hvs.unshared⟩
    rw [he.follow_eq hv.closed hw] at hρ hσ
    exact hv.unshared w (List.mem_singleton_self w) ρ σ r hρ hσ
  · refine .cons (fun u hu r hr hr' => ?_) hvs.apart
    obtain ⟨node, hn⟩ := hv.closed.reached hw ((hreach r).1 hr)
    rw [hvs.fresh u hu r hr'] at hn
    cases hn

section
variable {t : Ref} {u : Value}

theorem follow_new (hc : k.Closed) (he : k.Extends k') (hnew : k'.get? t = some node)
    (hh : ∀ w ∈ node.elements, k.Holds w) {ρ : List Step}
    (hρ : k'.follow ρ (.ref t) = some (.ref q)) :
    ρ = [] ∧ q = t ∨ ∃ st σ u, ρ = st :: σ ∧ node.step? st = some u ∧ u ∈ node.elements ∧
      k.follow σ u = some (.ref q) := by
  cases ρ with
  | nil =>
    cases hρ
    exact .inl ⟨rfl, rfl⟩
  | cons st σ =>
    obtain ⟨_, node', u, ⟨⟩, hn, hu, hσ⟩ := follow_cons_eq_some.1 hρ
    obtain rfl : node = node' := Option.some.inj (hnew.symm.trans hn)
    have hmem := Node.mem_elements.2 ⟨st, hu⟩
    rw [he.follow_eq hc (hh u hmem)] at hσ
    exact .inr ⟨st, σ, u, rfl, hu, hmem, hσ⟩

theorem step_unique (hu : Unfolds h vs k m node.elements) {st st' : Step} {u v : Value}
    (hst : node.step? st = some u) (hst' : node.step? st' = some v) (hur : k.Reaches u r)
    (hvr : k.Reaches v r) : st = st' := by
  have hpair := List.pairwise_iff_getElem.1 hu.apart
  obtain ⟨hi, hui⟩ := List.getElem?_eq_some_iff.1 (Node.getElem?_position hst)
  obtain ⟨hj, hvj⟩ := List.getElem?_eq_some_iff.1 (Node.getElem?_position hst')
  rw [← hui] at hur
  rw [← hvj] at hvr
  obtain hlt | heq | hlt := Nat.lt_trichotomy (node.position st) (node.position st')
  · exact absurd hvr (hpair _ _ hi hj hlt r hur)
  · exact Node.position_injective hst hst' heq
  · exact absurd hur (hpair _ _ hj hi hlt r hvr)

theorem follow_ne_free (hu : Unfolds h vs k m ws) (hmem : u ∈ ws) (ht : k.get? t = none)
    (ρ : List Step) : k.follow ρ u ≠ some (.ref t) := by
  intro hρ
  obtain ⟨old, hold⟩ := hu.closed.reached (hu.holds u hmem) ⟨ρ, hρ⟩
  rw [ht] at hold
  cases hold

theorem unshared_new (hu : Unfolds h vs k m node.elements) (he : k.Extends k')
    (hnone : k.get? t = none) (hnew : k'.get? t = some node) {ρ σ : List Step}
    (hρ : k'.follow ρ (.ref t) = some (.ref q)) (hσ : k'.follow σ (.ref t) = some (.ref q)) :
    ρ = σ := by
  obtain ⟨rfl, rfl⟩ | ⟨st, ρ, u, rfl, hst, hmem, hρ⟩ :=
      follow_new hu.closed he hnew hu.holds hρ <;>
    obtain ⟨rfl, hq⟩ | ⟨st', σ, v, rfl, hst', hmem', hσ⟩ :=
      follow_new hu.closed he hnew hu.holds hσ
  · rfl
  · exact absurd hσ (hu.follow_ne_free hmem' hnone σ)
  · rw [hq] at hρ
    exact absurd hρ (hu.follow_ne_free hmem hnone ρ)
  · obtain rfl := hu.step_unique hst hst' ⟨ρ, hρ⟩ ⟨σ, hσ⟩
    obtain rfl := Option.some.inj (hst.symm.trans hst')
    rw [hu.unshared u hmem ρ σ q hρ hσ]

theorem alloc (hu : Unfolds h (node.map m).elements k m node.elements)
    (hr : h.get? r = some (node.map m)) :
    Unfolds h [.ref r] (k.alloc node).2 (fun q => if q = (k.alloc node).1 then r else m q)
      [.ref (k.alloc node).1] := by
  have he : k.Extends (k.alloc node).2 := .alloc k node
  have hclosed := hu.closed.alloc hu.holds
  have hnone := get?_alloc_fst k node
  have hnew : (k.alloc node).2.get? (k.alloc node).1 = some node := get?_alloc k node
  generalize (k.alloc node).2 = k' at he hclosed hnew
  generalize (k.alloc node).1 = t at hnone hnew
  have hroute {ρ q} := follow_new hu.closed he hnew hu.holds (ρ := ρ) (q := q)
  have hagree : ∀ q old, k.get? q = some old → (if q = t then r else m q) = m q := by
    rintro q old hq
    apply if_neg
    intro heq
    subst heq
    rw [hnone] at hq
    cases hq
  refine ⟨hu.keeps.trans he, hclosed, List.forall_mem_singleton.2 ?_, ?_,
    List.forall_mem_singleton.2 ?_, List.forall_mem_singleton.2 ?_, List.forall_mem_singleton.2 ?_,
    List.pairwise_singleton _ _⟩
  · intro _ heq
    cases heq
    exact ⟨node, hnew⟩
  · rw [List.map_singleton, Value.map_ref, if_pos rfl]
  · rintro q ⟨ρ, hρ⟩
    obtain ⟨rfl, rfl⟩ | ⟨st, σ, u, rfl, hst, hmem, hσ⟩ := hroute hρ
    · exact get?_eq_none_of_extends hu.keeps hnone
    · exact hu.fresh u hmem q ⟨σ, hσ⟩
  · rintro q old ⟨ρ, hρ⟩ hq
    obtain ⟨rfl, rfl⟩ | ⟨st, σ, u, rfl, hst, hmem, hσ⟩ := hroute hρ
    · obtain rfl : node = old := Option.some.inj (hnew.symm.trans hq)
      rw [if_pos rfl, he.keeps (hu.keeps.keeps hr)]
      exact congrArg some (Node.map_congr fun w hw =>
        (map_eq_of_holds hagree (hu.holds w hw)).symm)
    · rw [he.get?_eq (hu.closed.reached (hu.holds u hmem) ⟨σ, hσ⟩)] at hq
      rw [hagree q old hq, node_map_eq_of_held hagree hu.closed hq]
      exact he.keeps (hu.origin u hmem q old ⟨σ, hσ⟩ hq)
  · exact fun ρ σ q hρ hσ => hu.unshared_new he hnone hnew hρ hσ

end

end Unfolds

theorem Within.exists_unfolds (hw : h.Within n v) (hc : h.Closed) (hv : h.Holds v) :
    ∃ k m w, Unfolds h [v] k m [w] := by
  induction n generalizing h v with
  | zero => exact hw.elim
  | succ n ih =>
    have hall : ∀ (vs : List Value) (h : Heap), h.Closed → (∀ v ∈ vs, h.Within n v ∧ h.Holds v) →
        ∃ k m ws, Unfolds h vs k m ws := by
      intro vs
      induction vs with
      | nil => exact fun h hc _ => ⟨h, id, [], .nil hc⟩
      | cons v vs ihs =>
        intro h hc hvs
        rw [List.forall_mem_cons] at hvs
        obtain ⟨k, m, w, hv⟩ := ih hvs.1.1 hc hvs.1.2
        obtain ⟨k', m', ws, hrest⟩ := ihs k hv.closed fun u hu =>
          ⟨hv.keeps.within hc (hvs.2 u hu).2 (hvs.2 u hu).1, hv.keeps.holds (hvs.2 u hu).2⟩
        exact ⟨k', _, w :: ws, hv.cons hrest⟩
    cases hr : v.asRef? with
    | none => exact ⟨h, id, v, .leaf hc hr⟩
    | some r =>
      obtain rfl := Value.asRef?_eq_some.1 hr
      obtain ⟨node, hn⟩ := hv r rfl
      obtain ⟨k, m, ws, hu⟩ := hall node.elements h hc fun u hmem =>
        ⟨hw r node rfl hn u hmem, hc.holds_element hn hmem⟩
      obtain ⟨node', rfl, rfl⟩ := Node.exists_of_elements hu.source
      exact ⟨_, _, _, hu.alloc hn⟩

/-- Every value below its limit has an expansion. -/
theorem Within.exists_expands (hw : h.Within n (.ref b)) (hc : h.Closed) (hb : h.Holds (.ref b)) :
    ∃ k m c, h.Extends k ∧ k.Closed ∧ k.Holds (.ref c) ∧ k.Expands m b c := by
  obtain ⟨k, m, w, hu⟩ := hw.exists_unfolds hc hb
  have hsource : w.map m = .ref b := (List.cons.injEq .. ▸ hu.source).1
  have hself : w ∈ [w] := List.mem_singleton_self w
  cases w <;> cases hsource
  case ref c =>
    exact ⟨k, m, c, hu.keeps, hu.closed, hu.holds _ hself, rfl, hu.origin _ hself,
      fun ρ σ r _ hρ hσ _ => hu.unshared _ hself ρ σ r hρ hσ⟩

end Heap

end Promptbook

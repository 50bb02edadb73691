import Promptbook.Proofs.Body.Walk
import Promptbook.Proofs.Heap.Copy
import Promptbook.Proofs.Heap.Parts
import Promptbook.Proofs.Placeholder

namespace Promptbook

/-- A text, a truth value, null, or an integer whose digits can be written. -/
def Value.isScalar : Value → Bool
  | null | bool _ => true
  | int n => n.natAbs < tenTo Fault.digitLimit
  | v => v.asText?.isSome

namespace Heap

def isOrdinary (h : Heap) (v : Value) : Bool :=
  match h.node? v with
  | some (.list _) => true
  | some (.dict es) => es.all fun e => e.1.asText?.isSome
  | some _ => false
  | none => v.isScalar

/-- Every part of a value is a list, a dictionary under texts, or a scalar. -/
def Ordinary (h : Heap) (v : Value) : Prop :=
  ∀ ρ w, h.follow ρ v = some w → h.isOrdinary w = true

variable {h : Heap} {v w x values : Value} {r : Ref} {ρ : List Step} {n : Nat}
  {entered ancestors : List Ref} {names : List String} {s : String}
  {stand : Value → Except Fault Json}

namespace Ordinary

theorem of_elements (hv : ∀ w ∈ v :: h.elements, h.isOrdinary w = true) : h.Ordinary v :=
  fun _ w hw => hv w (mem_of_follow hw)

theorem part (ho : h.Ordinary v) (hw : h.follow ρ v = some w) : h.Ordinary w := by
  intro σ x hx
  exact ho (ρ ++ σ) x (by rw [follow_append, hw]; exact hx)

theorem element {node : Node} (ho : h.Ordinary (.ref r)) (hr : h.get? r = some node)
    (hx : x ∈ node.elements) : h.Ordinary x := by
  obtain ⟨st, hst⟩ := Node.mem_elements.1 hx
  exact ho.part (follow_single.2 ⟨r, node, rfl, hr, hst⟩)

theorem container (ho : h.Ordinary (.ref r)) :
    (∃ xs, h.get? r = some (.list xs)) ∨
      ∃ es, h.get? r = some (.dict es) ∧ ∀ e ∈ es, ∃ s, e.1.asText? = some s := by
  have hr := ho [] (.ref r) rfl
  rw [isOrdinary, node?_ref] at hr
  split at hr
  · next xs hn => exact .inl ⟨xs, hn⟩
  · next es hn =>
    right
    refine ⟨es, hn, ?_⟩
    intro e he
    exact Option.isSome_iff_exists.1 (List.all_eq_true.1 hr e he)
  · cases hr
  · cases hr

theorem holds (ho : h.Ordinary v) : h.Holds v := by
  intro r hr
  subst hr
  obtain ⟨xs, hr⟩ | ⟨es, hr, -⟩ := ho.container
  · exact ⟨_, hr⟩
  · exact ⟨_, hr⟩

theorem unsealed (ho : h.Ordinary v) : h.Unsealed v := by
  intro r ks message hr hn
  obtain ⟨ρ, hρ⟩ := hr
  obtain ⟨xs, hxs⟩ | ⟨es, hes, -⟩ := (ho.part hρ).container
  · rw [hn] at hxs
    cases hxs
  · rw [hn] at hes
    cases hes

theorem walk_total (ho : h.Ordinary v) :
    ∃ o, h.walk names v = .ok o ∧ ∀ w, o = some w → ∃ ρ, h.follow ρ v = some w := by
  induction names generalizing v with
  | nil => exact ⟨some v, rfl, fun w hw => ⟨[], hw⟩⟩
  | cons name names ih =>
    have hnowhere : ∀ w, (none : Option Value) = some w → ∃ ρ, h.follow ρ v = some w := nofun
    cases hm : h.mapping? v with
    | none => exact ⟨none, by rw [Heap.walk, hm], hnowhere⟩
    | some m =>
      obtain ⟨es, rfl⟩ := ho.unsealed.entries hm
      obtain ⟨r, rfl, hr⟩ := exists_of_entries hm
      rw [walk_cons hm]
      cases hl : lookupText name es with
      | none => exact ⟨none, rfl, hnowhere⟩
      | some w =>
        obtain ⟨i, hi⟩ := follow_of_lookupText hr hl
        obtain ⟨o, hwalk, hpart⟩ := ih (ho.part hi)
        refine ⟨o, hwalk, ?_⟩
        intro x hx
        obtain ⟨ρ, hρ⟩ := hpart x hx
        exact ⟨.slot i :: ρ, by rw [← List.singleton_append, follow_append, hi]; exact hρ⟩

end Ordinary

theorem Unsealed.elements_of_inside? {children : Except Fault (List Value)} (hu : h.Unsealed v)
    (hi : h.inside? v = some children) : ∃ r node xs, v = .ref r ∧ h.get? r = some node ∧
      children = .ok xs ∧ ∀ x ∈ xs, x ∈ node.elements := by
  cases hn : h.node? v with
  | none =>
    rw [inside?, hn] at hi
    cases hi
  | some node =>
    obtain ⟨r, rfl, hr⟩ := exists_of_node? hn
    rw [inside?, hn] at hi
    cases node with
    | list xs =>
      cases hi
      exact ⟨r, _, xs, rfl, hr, rfl, fun x hx => hx⟩
    | tuple xs =>
      cases hi
      exact ⟨r, _, xs, rfl, hr, rfl, fun x hx => hx⟩
    | dict es =>
      cases hi
      refine ⟨r, _, _, rfl, hr, rfl, ?_⟩
      intro x hx
      obtain ⟨e, he, rfl⟩ := List.mem_map.1 hx
      exact (Node.mem_elements_entry he).2
    | set xs => cases hi
    | «sealed» ks message => exact (hu r ks message (.refl h r) hr).elim

theorem hasCycleWithin_total (hu : h.Unsealed v) (hn : h.Nested n entered v) :
    ∃ b, h.hasCycleWithin n entered v = .ok b := by
  induction n generalizing entered v with
  | zero => exact hn.elim
  | succ n ih =>
    cases hi : h.inside? v with
    | none => exact ⟨false, by simp [hasCycleWithin, hi]⟩
    | some children =>
      obtain ⟨r, node, xs, rfl, hr, rfl, hxs⟩ := hu.elements_of_inside? hi
      simp only [hasCycleWithin, Value.asRef?, hi, ok_bind]
      by_cases hin : r ∈ entered
      · exact ⟨true, if_pos hin⟩
      · rw [if_neg hin]
        apply anyOk_total
        intro x hx
        obtain ⟨st, hst⟩ := Node.mem_elements.1 (hxs x hx)
        apply ih (hu.part (follow_single.2 ⟨r, node, rfl, hr, hst⟩))
        apply (hn r node rfl hin hr x (hxs x hx)).weaken
        split
        · exact List.subset_cons_self r entered
        · exact List.Subset.refl _

/-- A search that came to an end gives the same answer at any greater depth. -/
theorem hasCycleWithin_mono {m : Nat} {b : Bool} (hc : h.hasCycleWithin n entered v = .ok b)
    (hle : n ≤ m) : h.hasCycleWithin m entered v = .ok b := by
  induction n generalizing m entered v b with
  | zero => cases hc
  | succ n ih =>
    obtain ⟨m, rfl⟩ := Nat.exists_eq_succ_of_ne_zero (Nat.ne_zero_of_lt hle)
    rw [hasCycleWithin] at hc ⊢
    split
    · next r children hr hi =>
      simp only [hr, hi] at hc
      split at hc
      · next hin => rwa [if_pos hin]
      · next hin =>
        rw [bind_eq_ok] at hc
        obtain ⟨xs, rfl, hc⟩ := hc
        rw [if_neg hin, ok_bind]
        exact anyOk_mono (fun x _ _ hx => ih hx (Nat.le_of_succ_le_succ hle)) hc
    · next hnot =>
      split at hc
      · next r children hr hi => exact (hnot r children hr hi).elim
      · exact hc

theorem hasCycleWithin_eq_false {xs : List Value} (hi : h.inside? (.ref r) = some (.ok xs))
    (hc : h.hasCycleWithin (n + 1) ancestors (.ref r) = .ok false) :
    r ∉ ancestors ∧ ∀ x ∈ xs, h.hasCycleWithin n (r :: ancestors) x = .ok false := by
  simp only [hasCycleWithin, Value.asRef?, hi, ok_bind] at hc
  split at hc
  · cases hc
  · next hin => exact ⟨hin, anyOk_eq_false hc⟩

theorem memberName_of_text (hv : v.asText? = some s) : h.memberName v = .ok s := by
  cases v with
  | text t | kind k | category c =>
    cases hv
    rfl
  | _ => cases hv

theorem integerText_of_isScalar {i : Int} (hi : (Value.int i).isScalar = true) :
    integerText i = .ok (toString i) := by
  rw [Value.isScalar, decide_eq_true_eq] at hi
  rw [integerText, if_pos hi]

theorem leafJson?_of_isScalar (hv : v.isScalar = true) : ∃ j, leafJson? v = some (.ok j) := by
  cases v with
  | null => exact ⟨_, rfl⟩
  | bool b => exact ⟨_, rfl⟩
  | int i => exact ⟨.int i, by rw [leafJson?, integerText_of_isScalar hv]; rfl⟩
  | text t => exact ⟨_, rfl⟩
  | kind k => exact ⟨_, rfl⟩
  | category c => exact ⟨_, rfl⟩
  | _ => cases hv

namespace Ordinary

theorem scalar (ho : h.Ordinary v) (hv : v.asRef? = none) : v.isScalar = true := by
  have hv' := ho [] v rfl
  cases v with
  | ref r => cases hv
  | _ => exact hv'

theorem toJsonWithin_total (ho : h.Ordinary v) (hc : h.hasCycleWithin n ancestors v = .ok false) :
    ∃ j, h.toJsonWithin stand n ancestors v = .ok j := by
  induction n generalizing ancestors v with
  | zero => cases hc
  | succ n ih =>
    cases hv : v.asRef? with
    | none =>
      obtain ⟨j, hj⟩ := leafJson?_of_isScalar (ho.scalar hv)
      exact ⟨j, by rw [toJsonWithin, hj]⟩
    | some r =>
      obtain rfl := Value.asRef?_eq_some.1 hv
      simp only [toJsonWithin, leafJson?, Value.asText?_ref, Option.map_none, Value.asRef?,
        node?_ref]
      obtain ⟨xs, hr⟩ | ⟨es, hr, hkeys⟩ := ho.container
      · obtain ⟨hin, hx⟩ := hasCycleWithin_eq_false (by rw [inside?, node?_ref, hr]) hc
        obtain ⟨js, hjs⟩ : ∃ js, eachOk (h.toJsonWithin stand n (r :: ancestors)) xs = .ok js :=
          eachOk_total fun x hmem => ih (ho.element hr hmem) (hx x hmem)
        exact ⟨.list js, by simp only [hr, hin, ↓reduceIte, hjs, ok_bind]; rfl⟩
      · obtain ⟨hin, hx⟩ := hasCycleWithin_eq_false (by rw [inside?, node?_ref, hr]) hc
        simp only [hr, hin, ↓reduceIte]
        obtain ⟨ms, hms⟩ : ∃ ms, eachOk (fun e => do
            let name ← h.memberName e.1
            let j ← h.toJsonWithin stand n (r :: ancestors) e.2
            return (name, j)) es = .ok ms := by
          apply eachOk_total
          intro e he
          obtain ⟨s, hs⟩ := hkeys e he
          obtain ⟨j, hj⟩ := ih (ho.element hr (Node.mem_elements_entry he).2)
            (hx e.2 (List.mem_map_of_mem he))
          exact ⟨(s, j), by rw [memberName_of_text hs, ok_bind, hj]; rfl⟩
        exact ⟨.object ms, by rw [hms]; rfl⟩

theorem render_total (ho : h.Ordinary v) (hn : h.Nested h.depths.render [] v) :
    ∃ t, h.render v = .ok t := by
  cases v with
  | null => exact ⟨_, rfl⟩
  | bool b => exact ⟨_, rfl⟩
  | int i => exact ⟨_, integerText_of_isScalar (ho.scalar rfl)⟩
  | text s => exact ⟨_, rfl⟩
  | kind k => exact ⟨_, rfl⟩
  | category c => exact ⟨_, rfl⟩
  | ref r =>
    obtain ⟨inner, hinner⟩ : ∃ inner, h.inside? (.ref r) = some inner := by
      obtain ⟨xs, hr⟩ | ⟨es, hr, -⟩ := ho.container
      · exact ⟨_, by rw [inside?, node?_ref, hr]⟩
      · exact ⟨_, by rw [inside?, node?_ref, hr]⟩
    obtain ⟨b, hb⟩ := hasCycleWithin_total ho.unsealed hn
    have hcycle : h.hasCycle (.ref r) = .ok b :=
      (h.hasCycle_eq_within _).trans (hasCycleWithin_mono hb (Nat.min_le_left _ _))
    cases b with
    | true =>
      exact ⟨cycleMarker, by simp only [render, Value.asText?_ref, hinner, hcycle, ok_bind]; rfl⟩
    | false =>
      obtain ⟨j, hjson⟩ : ∃ j, h.toJson h.standInNull (.ref r) = .ok j :=
        ho.toJsonWithin_total (hasCycleWithin_mono hb (Nat.min_le_right _ _))
      exact ⟨j.print, by simp only [render, Value.asText?_ref, hinner, hcycle, hjson, ok_bind]; rfl⟩
  | _ => cases ho.scalar rfl

theorem fills (ho : h.Ordinary values) (hb : h.Bounded h.depths.render values) : h.Fills values s := by
  apply substitute_total
  intro path _
  obtain ⟨o, hlookup, hpart⟩ : ∃ o, h.lookup path values = .ok o ∧
      ∀ w, o = some w → ∃ ρ, h.follow ρ values = some w := ho.walk_total
  refine ⟨o, hlookup, ?_⟩
  intro v hv
  obtain ⟨ρ, hρ⟩ := hpart v hv
  exact (ho.part hρ).render_total (hb.nested hρ)

end Ordinary

section Nest

def nest (h : Heap) : Nat → Value × Heap
  | 0 => h.store (.list [])
  | n + 1 => (h.nest n).2.store (.list [(h.nest n).1])

variable {k : Heap} {m : Nat}

theorem nest_eq_list (h : Heap) (n : Nat) :
    ∃ r xs, (h.nest n).1 = .ref r ∧ (h.nest n).2.get? r = some (.list xs) := by
  cases n with
  | zero => exact ⟨_, _, rfl, get?_alloc h _⟩
  | succ n => exact ⟨_, _, rfl, get?_alloc _ _⟩

theorem holds_nest (h : Heap) (n : Nat) : (h.nest n).2.Holds (h.nest n).1 := by
  obtain ⟨r, xs, hr, hget⟩ := nest_eq_list h n
  intro q hq
  cases hr.symm.trans hq
  exact ⟨_, hget⟩

theorem extends_nest (h : Heap) (n : Nat) : h.Extends (h.nest n).2 := by
  induction n with
  | zero => exact .alloc h _
  | succ n ih => exact ih.trans (.alloc _ _)

theorem closed_nest (hc : h.Closed) (n : Nat) : (h.nest n).2.Closed := by
  induction n with
  | zero => exact hc.alloc (List.forall_mem_nil _)
  | succ n ih => exact ih.alloc (List.forall_mem_singleton.2 (holds_nest h n))

theorem ordinary_nest (he : (h.nest n).2.Extends k) : k.Ordinary (h.nest n).1 := by
  intro ρ
  induction ρ generalizing n with
  | nil =>
    intro w hw
    cases hw
    obtain ⟨r, xs, hr, hget⟩ := nest_eq_list h n
    rw [hr, isOrdinary, node?_ref, he.keeps hget]
  | cons st ρ ih =>
    intro w hw
    obtain ⟨r, node, u, hr, hnode, hu, hw⟩ := follow_cons_eq_some.1 hw
    cases n with
    | zero =>
      cases hr
      rw [he.keeps (get?_alloc h _)] at hnode
      cases hnode
      cases Node.mem_elements.2 ⟨st, hu⟩
    | succ n =>
      cases hr
      rw [he.keeps (get?_alloc _ _)] at hnode
      cases hnode
      obtain rfl := List.mem_singleton.1 (Node.mem_elements.2 ⟨st, hu⟩)
      exact ih ((Extends.alloc _ _).trans he) w hw

theorem hasCycleWithin_nest (he : (h.nest n).2.Extends k) (hle : m ≤ n)
    (ha : ∀ r ∈ ancestors, (h.nest n).2.nodes.size ≤ r.index) :
    k.hasCycleWithin m ancestors (h.nest n).1 = .error .tooDeep := by
  induction n generalizing m ancestors with
  | zero =>
    obtain rfl := Nat.le_zero.1 hle
    rfl
  | succ n ih =>
    cases m with
    | zero => rfl
    | succ m =>
      have hsize : (h.nest (n + 1)).2.nodes.size = (h.nest n).2.nodes.size + 1 := by
        simp [nest, store, alloc]
      have hget := he.keeps (get?_alloc (h.nest n).2 (.list [(h.nest n).1]))
      have hnot : ((h.nest n).2.alloc (.list [(h.nest n).1])).1 ∉ ancestors := by
        intro hin
        have hlarge := ha _ hin
        rw [hsize] at hlarge
        exact Nat.not_succ_le_self _ hlarge
      have ha' : ∀ r ∈ ((h.nest n).2.alloc (.list [(h.nest n).1])).1 :: ancestors,
          (h.nest n).2.nodes.size ≤ r.index := by
        rw [List.forall_mem_cons]
        refine ⟨Nat.le_refl _, ?_⟩
        intro r hr
        have hlarge := ha r hr
        rw [hsize] at hlarge
        exact Nat.le_of_succ_le hlarge
      have hinner := ih ((Extends.alloc _ _).trans he) (Nat.le_of_succ_le_succ hle) ha'
      simp only [nest, store, hasCycleWithin, Value.asRef?, inside?, node?_ref, hget, hnot,
        ↓reduceIte, ok_bind, anyOk, hinner]
      rfl

theorem render_nest (he : (h.nest n).2.Extends k) (hn : k.depths.search ≤ n) :
    k.render (h.nest n).1 = .error .tooDeep := by
  have hcycle : k.hasCycle (h.nest n).1 = .error .tooDeep :=
    (k.hasCycle_eq_within _).trans (hasCycleWithin_nest he hn (List.forall_mem_nil _))
  obtain ⟨r, xs, hr, hget⟩ := nest_eq_list h n
  rw [hr] at hcycle ⊢
  simp only [render, Value.asText?_ref, inside?, node?_ref, he.keeps hget, hcycle]
  rfl

theorem copyWithin_nest {s : Copying} (he : (h.nest n).2.Extends s.heap) (hle : m ≤ n)
    (hm : ∀ e ∈ s.moved, (h.nest n).2.nodes.size ≤ e.1.index) :
    copyWithin m (h.nest n).1 s = .error .tooDeep := by
  induction n generalizing m s with
  | zero =>
    obtain rfl := Nat.le_zero.1 hle
    rfl
  | succ n ih =>
    cases m with
    | zero => rfl
    | succ m =>
      let r := ((h.nest n).2.alloc (.list [(h.nest n).1])).1
      have hsize : (h.nest (n + 1)).2.nodes.size = (h.nest n).2.nodes.size + 1 := by
        simp [nest, store, alloc]
      have hget : s.heap.get? r = some (.list [(h.nest n).1]) := he.keeps (get?_alloc _ _)
      have hnot : s.moved.lookup r = none := by
        rw [List.lookup_eq_none_iff]
        intro e hin
        have hlarge := hm e hin
        rw [hsize] at hlarge
        rw [bne_iff_ne]
        intro heq
        rw [← heq] at hlarge
        exact Nat.not_succ_le_self _ hlarge
      have hinner : copyWithin m (h.nest n).1 (s.reserve r (.list [])).2 = .error .tooDeep := by
        apply ih
        · exact ((Extends.alloc _ _).trans he).trans (.alloc _ _)
        · exact Nat.le_of_succ_le_succ hle
        · simp only [Copying.reserve, List.forall_mem_cons]
          refine ⟨Nat.le_refl _, fun e hin => ?_⟩
          have hlarge := hm e hin
          rw [hsize] at hlarge
          exact Nat.le_of_succ_le hlarge
      have hvalue : (h.nest (n + 1)).1 = .ref r := rfl
      simp only [hvalue, copyWithin, hnot, hget, copyEach, hinner]
      rfl

theorem copyWithin_dict_error {s : Copying} {r : Ref} {key : String} {v : Value}
    {es : List (Value × Value)} (hm : s.moved.lookup r = none)
    (hr : s.heap.get? r = some (.dict ((.text key, v) :: es)))
    (hv : copyWithin m v (s.reserve r (.dict [])).2 = .error .tooDeep) :
    copyWithin (m + 1) (.ref r) s = .error .tooDeep := by
  have hentries : copyEntries (copyWithin m) ((.text key, v) :: es)
      (s.reserve r (.dict [])).2 = .error .tooDeep := by
    cases m with
    | zero => rfl
    | succ m =>
      have hkey (s : Copying) : copyWithin (m + 1) (.text key) s = .ok (.text key, s) := rfl
      rw [copyEntries, hkey, ok_bind]
      simp only [hv]
      rfl
  rw [copyWithin, hm, hr]
  simp only [hentries]
  rfl

end Nest

end Heap

end Promptbook

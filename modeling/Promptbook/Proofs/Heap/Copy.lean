import Promptbook.Proofs.Heap.Route
import Promptbook.Proofs.Outcome

namespace Promptbook.Heap

variable {h : Heap} {v w : Value} {r q t : Ref} {node : Node}

namespace Copying

variable {s s' s'' : Copying}

def image (s : Copying) (r : Ref) : Ref :=
  (s.moved.lookup r).getD r

def Covers (s : Copying) (v : Value) : Prop :=
  ∀ r, v = .ref r → ∃ t, s.moved.lookup r = some t

/-- A copy under way of containers of a heap. Only a tuple may stand for itself. -/
structure Sound (h : Heap) (s : Copying) : Prop where
  keeps : h.Extends s.heap
  closed : s.heap.Closed
  source : ∀ r t, s.moved.lookup r = some t → ∃ node, h.get? r = some node
  target : ∀ r t, s.moved.lookup r = some t → ∃ node, s.heap.get? t = some node
  fresh : ∀ r t, s.moved.lookup r = some t →
    h.get? t = none ∨ t = r ∧ ∃ xs, h.get? r = some (.tuple xs)
  injective : ∀ r q t, s.moved.lookup r = some t → s.moved.lookup q = some t → r = q

def Finished (h : Heap) (s : Copying) (r t : Ref) : Prop :=
  ∃ node, h.get? r = some node ∧ s.heap.get? t = some (node.map s.image) ∧
    ∀ v ∈ node.elements, s.Covers v

/-- What a stretch of a copy does: places in use keep their containers, and every container met on
the way is finished at its end. -/
structure Grows (h : Heap) (s s' : Copying) : Prop where
  kept : s.heap.Extends s'.heap
  moved : ∀ r t, s.moved.lookup r = some t → s'.moved.lookup r = some t
  finished : ∀ r t, s'.moved.lookup r = some t →
    s.moved.lookup r = some t ∨ s'.Finished h r t

theorem image_eq (hr : s.moved.lookup r = some t) : s.image r = t := by
  rw [image, hr]
  rfl

theorem Covers.mono (hm : ∀ r t, s.moved.lookup r = some t → s'.moved.lookup r = some t)
    (hv : s.Covers v) : s'.Covers v := by
  intro r hr
  obtain ⟨t, ht⟩ := hv r hr
  exact ⟨t, hm r t ht⟩

theorem Covers.map_eq (hm : ∀ r t, s.moved.lookup r = some t → s'.moved.lookup r = some t)
    (hv : s.Covers v) : v.map s.image = v.map s'.image := by
  apply Value.map_congr
  intro r hr
  obtain ⟨t, ht⟩ := hv r hr
  rw [image_eq ht, image_eq (hm r t ht)]

theorem Sound.holds_map (hs : s.Sound h) (hv : s.Covers v) : s.heap.Holds (v.map s.image) := by
  intro t ht
  cases v with
  | ref r =>
    cases ht
    obtain ⟨t, ht⟩ := hv r rfl
    rw [image_eq ht]
    exact hs.target r t ht
  | _ => cases ht

theorem Sound.holds_elements (hs : s.Sound h) (hc : ∀ v ∈ node.elements, s.Covers v) :
    ∀ v ∈ (node.map s.image).elements, s.heap.Holds v := by
  intro w hw
  obtain ⟨st, hst⟩ := Node.mem_elements.1 hw
  rw [Node.step?_map, Option.map_eq_some_iff] at hst
  obtain ⟨v, hv, rfl⟩ := hst
  exact hs.holds_map (hc v (Node.mem_elements.2 ⟨st, hv⟩))

theorem Finished.mono (hf : s.Finished h r t) (hg : Grows h s s') : s'.Finished h r t := by
  obtain ⟨node, hr, ht, hc⟩ := hf
  refine ⟨node, hr, ?_, fun v hv => (hc v hv).mono hg.moved⟩
  rw [← Node.map_congr fun v hv => (hc v hv).map_eq hg.moved]
  exact hg.kept.keeps ht

theorem Grows.refl (h : Heap) (s : Copying) : Grows h s s :=
  ⟨.refl _, fun _ _ hr => hr, fun _ _ hr => .inl hr⟩

theorem Grows.trans (hg : Grows h s s') (hg' : Grows h s' s'') : Grows h s s'' := by
  refine ⟨hg.kept.trans hg'.kept, fun r t hr => hg'.moved r t (hg.moved r t hr), ?_⟩
  intro r t hr
  rcases hg'.finished r t hr with hr' | hf
  · rcases hg.finished r t hr' with hr'' | hf
    · exact .inl hr''
    · exact .inr (hf.mono hg')
  · exact .inr hf

theorem lookup_reserve_self (s : Copying) (r : Ref) (node : Node) :
    (s.reserve r node).2.moved.lookup r = some (s.reserve r node).1 := by
  simp [reserve]

theorem lookup_reserve_of_ne (s : Copying) (node : Node) (hne : q ≠ r) :
    (s.reserve r node).2.moved.lookup q = s.moved.lookup q := by
  simp only [reserve, List.lookup_cons, beq_eq_false_iff_ne.2 hne]

theorem moved_reserve (hr : s.moved.lookup r = none) (node : Node) :
    ∀ q t, s.moved.lookup q = some t → (s.reserve r node).2.moved.lookup q = some t := by
  intro q t hq
  have hne : q ≠ r := by
    intro heq
    subst heq
    rw [hr] at hq
    cases hq
  rw [lookup_reserve_of_ne s node hne]
  exact hq

theorem get?_reserve_self (s : Copying) (r : Ref) (node : Node) :
    (s.reserve r node).2.heap.get? (s.reserve r node).1 = some node :=
  get?_alloc s.heap node

theorem Sound.lead {k : Heap} (hs : s.Sound h) (he : s.heap.Extends k) (hk : k.Closed)
    (hr : h.get? r = some node) (ht : ∃ p, k.get? t = some p)
    (hf : h.get? t = none ∨ t = r ∧ ∃ xs, h.get? r = some (.tuple xs))
    (hnot : ∀ q, s.moved.lookup q ≠ some t) : Sound h ⟨k, (r, t) :: s.moved⟩ := by
  have hcons (q u : Ref) (hq : List.lookup q ((r, t) :: s.moved) = some u) :
      q = r ∧ u = t ∨ s.moved.lookup q = some u := by
    by_cases hqr : q = r
    · subst hqr
      rw [List.lookup_cons_self] at hq
      cases hq
      exact .inl ⟨rfl, rfl⟩
    · rw [List.lookup_cons, beq_eq_false_iff_ne.2 hqr] at hq
      exact .inr hq
  refine ⟨hs.keeps.trans he, hk, ?_, ?_, ?_, ?_⟩
  · intro q u hq
    rcases hcons q u hq with ⟨rfl, rfl⟩ | hq
    · exact ⟨node, hr⟩
    · exact hs.source q u hq
  · intro q u hq
    rcases hcons q u hq with ⟨rfl, rfl⟩ | hq
    · exact ht
    · obtain ⟨p, hp⟩ := hs.target q u hq
      exact ⟨p, he.keeps hp⟩
  · intro q u hq
    rcases hcons q u hq with ⟨rfl, rfl⟩ | hq
    · exact hf
    · exact hs.fresh q u hq
  · intro q q' u hq hq'
    rcases hcons q u hq with ⟨rfl, rfl⟩ | hold
    · rcases hcons q' u hq' with ⟨rfl, _⟩ | hold'
      · rfl
      · exact absurd hold' (hnot q')
    · rcases hcons q' u hq' with ⟨_, rfl⟩ | hold'
      · exact absurd hold (hnot q)
      · exact hs.injective q q' u hold hold'

theorem Grows.lead {k : Heap} (he : s.heap.Extends k) (hr : h.get? r = some node)
    (hn : s.moved.lookup r = none) (ht : k.get? t = some (node.map s.image))
    (hc : ∀ v ∈ node.elements, s.Covers v) : Grows h s ⟨k, (r, t) :: s.moved⟩ := by
  have hm : ∀ q u, s.moved.lookup q = some u →
      (Copying.mk k ((r, t) :: s.moved)).moved.lookup q = some u := by
    intro q u hq
    have hne : q ≠ r := by
      intro heq
      subst heq
      rw [hn] at hq
      cases hq
    rw [List.lookup_cons, beq_eq_false_iff_ne.2 hne]
    exact hq
  refine ⟨he, hm, ?_⟩
  intro q u hq
  by_cases hqr : q = r
  · subst hqr
    simp only [List.lookup_cons_self, Option.some.injEq] at hq
    subst hq
    refine .inr ⟨node, hr, ?_, fun v hv => (hc v hv).mono hm⟩
    rw [ht, Node.map_congr fun v hv => (hc v hv).map_eq hm]
  · simp only [List.lookup_cons, beq_eq_false_iff_ne.2 hqr] at hq
    exact .inl hq

theorem Sound.reserve (hs : s.Sound h) (hr : h.get? r = some node) {p : Node}
    (hp : ∀ v ∈ p.elements, s.heap.Holds v) : (s.reserve r p).2.Sound h := by
  have hnew : s.heap.get? (s.heap.alloc p).1 = none := get?_alloc_fst s.heap p
  refine hs.lead (.alloc _ _) (hs.closed.alloc hp) hr ⟨p, get?_reserve_self s r p⟩
    (.inl (get?_eq_none_of_extends hs.keeps hnew)) ?_
  intro q hq
  obtain ⟨n, hn⟩ := hs.target q _ hq
  rw [hnew] at hn
  cases hn

theorem Sound.reserve_empty (hs : s.Sound h) (hr : h.get? r = some node) (p : Node)
    (hp : p.elements = []) : (s.reserve r p).2.Sound h := by
  apply hs.reserve hr
  rw [hp]
  exact List.forall_mem_nil _

theorem Sound.stay {xs : List Value} (hs : s.Sound h) (hr : h.get? r = some (.tuple xs))
    (hn : s.moved.lookup r = none) : Sound h ⟨s.heap, (r, r) :: s.moved⟩ := by
  apply hs.lead (.refl _) hs.closed hr ⟨_, hs.keeps.keeps hr⟩ (.inr ⟨rfl, xs, hr⟩)
  intro q hq
  rcases hs.fresh q r hq with hnone | ⟨rfl, _⟩
  · rw [hr] at hnone
    cases hnone
  · rw [hn] at hq
    cases hq

theorem Sound.fill (hs : s.Sound h) (ht : h.get? t = none) {p : Node}
    (hp : ∀ v ∈ p.elements, s.heap.Holds v) : (s.fill t p).Sound h := by
  refine ⟨hs.keeps.set ht p, hs.closed.set hp, hs.source, ?_, hs.fresh, hs.injective⟩
  intro q u hq
  obtain ⟨n, hn⟩ := hs.target q u hq
  by_cases he : t = u
  · subst he
    exact ⟨p, get?_set_self hn⟩
  · exact ⟨n, (get?_set_of_ne he).trans hn⟩

theorem Grows.fill {p : Node} (hr : h.get? r = some node)
    (hn : s.moved.lookup r = none) (hs' : s'.Sound h) (hg : Grows h (s.reserve r p).2 s')
    (hc : ∀ v ∈ node.elements, s'.Covers v) :
    Grows h s (s'.fill (s.reserve r p).1 (node.map s'.image)) := by
  have hself : s'.moved.lookup r = some (s.reserve r p).1 :=
    hg.moved r _ (lookup_reserve_self s r p)
  have hnew : s.heap.get? (s.reserve r p).1 = none := get?_alloc_fst s.heap p
  refine ⟨((Extends.alloc _ _).trans hg.kept).set hnew _, ?_, ?_⟩
  · exact fun q t hq => hg.moved q t (moved_reserve hn p q t hq)
  · intro q t hq
    by_cases he : q = r
    · subst he
      obtain rfl : _ = t := Option.some.inj (hself.symm.trans hq)
      obtain ⟨old, hold⟩ := hs'.target q _ hself
      exact .inr ⟨node, hr, get?_set_self hold, hc⟩
    · rcases hg.finished q t hq with hq' | ⟨n, hqn, htn, hcn⟩
      · rw [lookup_reserve_of_ne s p he] at hq'
        exact .inl hq'
      · have hne : (s.reserve r p).1 ≠ t := by
          intro heq
          subst heq
          exact he (hs'.injective q r _ hq hself)
        exact .inr ⟨n, hqn, (get?_set_of_ne hne).trans htn, hcn⟩

end Copying

def Copies (h : Heap) (step : Value → CopyStep Value) : Prop :=
  ∀ v s w s', s.Sound h → h.Holds v → step v s = .ok (w, s') →
    s'.Sound h ∧ Copying.Grows h s s' ∧ w = v.map s'.image ∧ s'.Covers v

variable {step : Value → CopyStep Value} {s s' : Copying}

theorem Copies.each (hstep : Copies h step) {xs ys : List Value} (hs : s.Sound h)
    (hx : ∀ x ∈ xs, h.Holds x) (hrun : copyEach step xs s = .ok (ys, s')) :
    s'.Sound h ∧ Copying.Grows h s s' ∧ ys = xs.map (Value.map s'.image) ∧
      ∀ x ∈ xs, s'.Covers x := by
  induction xs generalizing s ys with
  | nil =>
    cases hrun
    exact ⟨hs, .refl h _, rfl, List.forall_mem_nil _⟩
  | cons x xs ih =>
    simp only [List.forall_mem_cons] at hx
    simp only [copyEach, bind_eq_ok, pure_eq_ok, Prod.exists, Prod.mk.injEq] at hrun
    obtain ⟨y, s₁, hy, zs, s₂, hzs, rfl, rfl⟩ := hrun
    obtain ⟨hs₁, hg₁, rfl, hc₁⟩ := hstep x s y s₁ hs hx.1 hy
    obtain ⟨hs₂, hg₂, rfl, hc₂⟩ := ih hs₁ hx.2 hzs
    refine ⟨hs₂, hg₁.trans hg₂, ?_, ?_⟩
    · rw [List.map_cons, hc₁.map_eq hg₂.moved]
    · simp only [List.forall_mem_cons]
      exact ⟨hc₁.mono hg₂.moved, hc₂⟩

theorem Copies.entries (hstep : Copies h step) {es fs : List (Value × Value)} (hs : s.Sound h)
    (hx : ∀ e ∈ es, h.Holds e.1 ∧ h.Holds e.2) (hrun : copyEntries step es s = .ok (fs, s')) :
    s'.Sound h ∧ Copying.Grows h s s' ∧
      fs = es.map (fun e => (e.1.map s'.image, e.2.map s'.image)) ∧
      ∀ e ∈ es, s'.Covers e.1 ∧ s'.Covers e.2 := by
  induction es generalizing s fs with
  | nil =>
    cases hrun
    exact ⟨hs, .refl h _, rfl, List.forall_mem_nil _⟩
  | cons e es ih =>
    simp only [List.forall_mem_cons] at hx
    simp only [copyEntries, bind_eq_ok, pure_eq_ok, Prod.exists, Prod.mk.injEq] at hrun
    obtain ⟨a, s₁, ha, b, s₂, hb, cs, s₃, hcs, rfl, rfl⟩ := hrun
    obtain ⟨hs₁, hg₁, rfl, hc₁⟩ := hstep e.1 s a s₁ hs hx.1.1 ha
    obtain ⟨hs₂, hg₂, rfl, hc₂⟩ := hstep e.2 s₁ b s₂ hs₁ hx.1.2 hb
    obtain ⟨hs₃, hg₃, rfl, hc₃⟩ := ih hs₂ hx.2 hcs
    refine ⟨hs₃, (hg₁.trans hg₂).trans hg₃, ?_, ?_⟩
    · rw [List.map_cons, hc₁.map_eq (hg₂.trans hg₃).moved, hc₂.map_eq hg₃.moved]
    · simp only [List.forall_mem_cons]
      exact ⟨⟨hc₁.mono (hg₂.trans hg₃).moved, hc₂.mono hg₃.moved⟩, hc₃⟩

theorem Copying.leads (hm : s.moved.lookup r = some t) :
    Value.ref t = (Value.ref r).map s.image ∧ s.Covers (.ref r) := by
  constructor
  · exact congrArg Value.ref (image_eq hm).symm
  · intro _ heq
    cases heq
    exact ⟨t, hm⟩

theorem Copying.leaf (s : Copying) (hv : v.asRef? = none) :
    v = v.map s.image ∧ s.Covers v := by
  have hne : ∀ r, v ≠ .ref r := by
    intro r heq
    subst heq
    cases hv
  exact ⟨(Value.map_eq_self fun r he => absurd he (hne r)).symm, fun r he => absurd he (hne r)⟩

theorem Copying.Grows.copied {p : Node} (hr : h.get? r = some node)
    (hn : s.moved.lookup r = none) (hs : s.Sound h) (hs' : s'.Sound h)
    (hg : Copying.Grows h (s.reserve r p).2 s')
    (hc : ∀ v ∈ node.elements, s'.Covers v) :
    (s'.fill (s.reserve r p).1 (node.map s'.image)).Sound h ∧
      Copying.Grows h s (s'.fill (s.reserve r p).1 (node.map s'.image)) ∧
      Value.ref (s.reserve r p).1 =
        (Value.ref r).map (s'.fill (s.reserve r p).1 (node.map s'.image)).image ∧
      (s'.fill (s.reserve r p).1 (node.map s'.image)).Covers (.ref r) := by
  have hself : s'.moved.lookup r = some (s.reserve r p).1 :=
    hg.moved r _ (Copying.lookup_reserve_self s r p)
  have hnew : h.get? (s.reserve r p).1 = none :=
    get?_eq_none_of_extends hs.keeps (get?_alloc_fst s.heap p)
  exact ⟨hs'.fill hnew (hs'.holds_elements hc), hg.fill hr hn hs' hc, leads hself⟩

/-- The four facts on a tuple whose elements have been copied. It gets its place only then, and may
be its own copy. -/
theorem Copying.Grows.copied_tuple {xs : List Value} {w : Value} (hr : h.get? r = some (.tuple xs))
    (hs' : s'.Sound h) (hg : Copying.Grows h s s')
    (hc : ∀ x ∈ (Node.tuple xs).elements, s'.Covers x) {s'' : Copying}
    (hrun : (match s'.moved.lookup r with
      | some t => .ok (.ref t, s')
      | none =>
        if xs = xs.map (Value.map s'.image) then
          .ok (.ref r, { s' with moved := (r, r) :: s'.moved })
        else
          let (t, s) := s'.reserve r (.tuple (xs.map (Value.map s'.image)))
          .ok (.ref t, s) : Except Fault (Value × Copying)) = .ok (w, s'')) :
    s''.Sound h ∧ Copying.Grows h s s'' ∧ w = (Value.ref r).map s''.image ∧
      s''.Covers (.ref r) := by
  cases hm : s'.moved.lookup r with
  | some t =>
    -- The tuple was met again, and copied, while its own elements were copied.
    rw [hm] at hrun
    cases hrun
    exact ⟨hs', hg, leads hm⟩
  | none =>
    rw [hm] at hrun
    simp only [] at hrun
    split at hrun
    · rename_i hxs
      cases hrun
      have hg' := Copying.Grows.lead (.refl _) hr hm
        ((hs'.keeps.keeps hr).trans (congrArg (some ∘ Node.tuple) hxs)) hc
      exact ⟨hs'.stay hr hm, hg.trans hg', leads List.lookup_cons_self⟩
    · cases hrun
      have hg' := Copying.Grows.lead (.alloc _ _) hr hm (get?_alloc _ _) hc
      exact ⟨hs'.reserve hr (hs'.holds_elements hc), hg.trans hg',
        leads (Copying.lookup_reserve_self s' r _)⟩

theorem copyWithin_leaf (n : Nat) (s : Copying) (hv : v.asRef? = none) :
    copyWithin (n + 1) v s = v.agreesToCopy.map fun _ => (v, s) := by
  cases v <;> first | rfl | cases hv

theorem copies_copyWithin (hc : h.Closed) (n : Nat) : Copies h (copyWithin n) := by
  induction n with
  | zero =>
    intro v s w s' _ _ hrun
    cases hrun
  | succ n ih =>
    intro v s w s' hs hv hrun
    cases hr : v.asRef? with
    | none =>
      rw [copyWithin_leaf n s hr] at hrun
      obtain ⟨-, -, hrun⟩ := map_eq_ok.1 hrun
      cases hrun
      exact ⟨hs, .refl h s, Copying.leaf s hr⟩
    | some r =>
      obtain rfl := Value.asRef?_eq_some.1 hr
      obtain ⟨node, hr⟩ := hv r rfl
      simp only [copyWithin, hs.keeps.keeps hr] at hrun
      cases hm : s.moved.lookup r with
      | some t =>
        rw [hm] at hrun
        cases hrun
        exact ⟨hs, .refl h s, Copying.leads hm⟩
      | none =>
        rw [hm] at hrun
        cases node with
        | list xs =>
          simp only [bind_eq_ok, pure_eq_ok, Prod.exists, Prod.mk.injEq] at hrun
          obtain ⟨ys, s₁, hys, rfl, rfl⟩ := hrun
          obtain ⟨hs₁, hg, rfl, hcov⟩ :=
            ih.each (hs.reserve_empty hr (.list []) rfl) (fun x hx => hc.holds_element hr hx) hys
          exact hg.copied hr hm hs hs₁ hcov
        | set xs =>
          simp only [bind_eq_ok, pure_eq_ok, Prod.exists, Prod.mk.injEq] at hrun
          obtain ⟨ys, s₁, hys, rfl, rfl⟩ := hrun
          obtain ⟨hs₁, hg, rfl, hcov⟩ :=
            ih.each (hs.reserve_empty hr (.set []) rfl) (fun x hx => hc.holds_element hr hx) hys
          exact hg.copied hr hm hs hs₁ hcov
        | dict es =>
          simp only [bind_eq_ok, pure_eq_ok, Prod.exists, Prod.mk.injEq] at hrun
          obtain ⟨fs, s₁, hfs, rfl, rfl⟩ := hrun
          obtain ⟨hs₁, hg, rfl, hcov⟩ :=
            ih.entries (hs.reserve_empty hr (.dict []) rfl) (fun e he => hc.holds_entry hr he) hfs
          apply hg.copied hr hm hs hs₁
          intro v hv
          simp only [Node.elements, List.mem_flatMap, List.mem_cons, List.not_mem_nil,
            or_false] at hv
          obtain ⟨e, he, rfl | rfl⟩ := hv
          · exact (hcov e he).1
          · exact (hcov e he).2
        | sealed ks msg =>
          cases hrun
          have hg := Copying.Grows.lead (.alloc _ _) hr hm (get?_alloc _ _) (List.forall_mem_nil _)
          exact ⟨hs.reserve_empty hr (.sealed ks msg) rfl, hg,
            Copying.leads (Copying.lookup_reserve_self s r _)⟩
        | tuple xs =>
          simp only [bind_eq_ok, Prod.exists] at hrun
          obtain ⟨ys, s₁, hys, hrun⟩ := hrun
          obtain ⟨hs₁, hg, rfl, hcov⟩ := ih.each hs (fun x hx => hc.holds_element hr hx) hys
          exact hg.copied_tuple hr hs₁ hcov hrun

/-- A value stands for another container by container: `m` leads each container that the source
reaches to its copy. -/
structure IsCopy (h k : Heap) (m : Ref → Ref) (v w : Value) : Prop where
  keeps : h.Extends k
  closed : k.Closed
  value : w = v.map m
  node : ∀ r node, h.Reaches v r → h.get? r = some node → k.get? (m r) = some (node.map m)
  injective : ∀ r q, h.Reaches v r → h.Reaches v q → m r = m q → r = q
  fresh : ∀ r node, h.Reaches v r → h.get? r = some node → node.isOpen = true →
    h.get? (m r) = none

theorem Copying.sound_start {k : Heap} (he : h.Extends k) (hk : k.Closed) :
    Copying.Sound h ⟨k, []⟩ where
  keeps := he
  closed := hk
  source _ _ hm := by cases hm
  target _ _ hm := by cases hm
  fresh _ _ hm := by cases hm
  injective _ _ _ hm := by cases hm

theorem Copying.Covers.reached {k : Heap} (hg : Copying.Grows h ⟨k, []⟩ s) (hv : s.Covers v)
    (hr : h.Reaches v r) : ∃ t, s.moved.lookup r = some t ∧ s.Finished h r t := by
  have hfin : ∀ q t, s.moved.lookup q = some t → s.Finished h q t := by
    intro q t hq
    rcases hg.finished q t hq with hq' | hf
    · cases hq'
    · exact hf
  refine hr.induction
    (P := fun v => s.Covers v → ∃ t, s.moved.lookup r = some t ∧ s.Finished h r t) ?_ ?_ hv
  · intro hv
    obtain ⟨t, ht⟩ := hv r rfl
    exact ⟨t, ht, hfin r t ht⟩
  · intro q node st u hq hu _ ih hv
    obtain ⟨t, ht⟩ := hv q rfl
    obtain ⟨node', hq', _, hc⟩ := hfin q t ht
    obtain rfl : node = node' := Option.some.inj (hq.symm.trans hq')
    exact ih (hc u (Node.mem_elements.2 ⟨st, hu⟩))

theorem isCopy_of_covers {k : Heap} (hs : s.Sound h) (hg : Copying.Grows h ⟨k, []⟩ s)
    (hcov : s.Covers v) : IsCopy h s.heap s.image v (v.map s.image) := by
  refine ⟨hs.keeps, hs.closed, rfl, ?_, ?_, ?_⟩
  · intro r node hr hn
    obtain ⟨t, ht, node', hn', htn, _⟩ := hcov.reached hg hr
    obtain rfl : node = node' := Option.some.inj (hn.symm.trans hn')
    rw [Copying.image_eq ht]
    exact htn
  · intro r q hr hq he
    obtain ⟨t, ht, _⟩ := hcov.reached hg hr
    obtain ⟨u, hu, _⟩ := hcov.reached hg hq
    rw [Copying.image_eq ht, Copying.image_eq hu] at he
    subst he
    exact hs.injective r q t ht hu
  · intro r node hr hn ho
    obtain ⟨t, ht, _⟩ := hcov.reached hg hr
    rw [Copying.image_eq ht]
    rcases hs.fresh r t ht with hnone | ⟨_, xs, hx⟩
    · exact hnone
    · rw [hn] at hx
      cases hx
      cases ho

theorem isCopy_of_copy {k : Heap} (hc : h.Closed) (hv : h.Holds v)
    (hrun : h.copy v = .ok (w, k)) : ∃ m, IsCopy h k m v w := by
  simp only [copy, bind_eq_ok, pure_eq_ok, Prod.exists, Prod.mk.injEq] at hrun
  obtain ⟨w, s, hrun, rfl, rfl⟩ := hrun
  obtain ⟨hs, hg, rfl, hcov⟩ :=
    copies_copyWithin hc _ _ _ _ _ (Copying.sound_start (.refl h) hc) hv hrun
  exact ⟨s.image, isCopy_of_covers hs hg hcov⟩

/-- The lists and dictionaries that a value reaches are not in another heap. -/
def Anew (h k : Heap) (v : Value) : Prop :=
  ∀ r node, k.Reaches v r → k.get? r = some node → node.isOpen = true → h.get? r = none

theorem anew_of_not_ref {k : Heap} (hv : ∀ r, v ≠ .ref r) : h.Anew k v := by
  intro r node hr
  exact (hr.induction (P := fun u => u = v → False) (fun he => hv _ he.symm)
    (fun q _ _ _ _ _ _ _ he => hv q he.symm) rfl).elim

theorem anew_of_empty {k : Heap} (hr : k.get? r = some (.list [])) (hnone : h.get? r = none) :
    h.Anew k (.ref r) := by
  intro q node hq hn _
  obtain ⟨ρ, hρ⟩ := hq
  cases ρ with
  | nil =>
    cases hρ
    exact hnone
  | cons st ρ =>
    obtain ⟨q', _, u, ⟨⟩, hq', hu, -⟩ := follow_cons_eq_some.1 hρ
    obtain rfl := Option.some.inj (hr.symm.trans hq')
    cases st <;> cases hu

theorem reached_map {k : Heap} {m : Ref → Ref}
    (hnode : ∀ r node, h.Reaches v r → h.get? r = some node → k.get? (m r) = some (node.map m))
    (hc : h.Closed) (hv : h.Holds v) (ht : k.Reaches (v.map m) t) :
    ∃ r, t = m r ∧ h.Reaches v r := by
  refine ht.induction (P := fun w => ∀ u, w = u.map m → (∀ r, u = .ref r → h.Reaches v r) →
    ∃ r, t = m r ∧ h.Reaches v r) ?_ ?_ v rfl fun r heq => heq ▸ .refl h r
  · intro u hu hreach
    cases u with
    | ref r =>
      cases hu
      exact ⟨r, rfl, hreach r rfl⟩
    | _ => cases hu
  · intro q node st w' hq hw' _ ih u hu hreach
    cases u with
    | ref r =>
      cases hu
      obtain ⟨old, hold⟩ := hc.reached hv (hreach r rfl)
      obtain rfl := Option.some.inj ((hnode r old (hreach r rfl) hold).symm.trans hq)
      rw [Node.step?_map, Option.map_eq_some_iff] at hw'
      obtain ⟨u', hu', rfl⟩ := hw'
      refine ih u' rfl fun p heq => ?_
      subst heq
      exact (hreach r rfl).tail hold hu'
    | _ => cases hu

namespace IsCopy

variable {k : Heap} {m : Ref → Ref}

theorem reached (hcopy : IsCopy h k m v w) (hc : h.Closed) (hv : h.Holds v)
    (ht : k.Reaches w t) : ∃ r, t = m r ∧ h.Reaches v r :=
  reached_map hcopy.node hc hv (hcopy.value ▸ ht)

theorem anew (hcopy : IsCopy h k m v w) (hc : h.Closed) (hv : h.Holds v) : h.Anew k w := by
  intro t node ht hn ho
  obtain ⟨r, rfl, hr⟩ := hcopy.reached hc hv ht
  obtain ⟨old, hold⟩ := hc.reached hv hr
  obtain rfl := Option.some.inj ((hcopy.node r old hr hold).symm.trans hn)
  rw [Node.isOpen_map] at ho
  exact hcopy.fresh r old hr hold ho

theorem holds (hcopy : IsCopy h k m v w) (hv : h.Holds v) : k.Holds w := by
  intro t ht
  rw [hcopy.value] at ht
  cases v with
  | ref r =>
    cases ht
    obtain ⟨node, hn⟩ := hv r rfl
    exact ⟨_, hcopy.node r node (.refl h r) hn⟩
  | _ => cases ht

end IsCopy

end Promptbook.Heap

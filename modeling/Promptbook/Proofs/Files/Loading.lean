import Mathlib.Tactic.Choose
import Promptbook.Proofs.Files.Data

namespace Promptbook.Yaml

theorem Scalar.leaf_of_value? {tag : Tag} {text : String} {v : Value}
    (hv : Scalar.value? tag text = some (.ok v)) : v.isLiteral = true ∧ v.asRef? = none := by
  cases tag with
  | null | text =>
    cases hv
    exact ⟨rfl, rfl⟩
  | bool | int | real | binary =>
    rw [value?, Option.some.injEq, map_eq_ok] at hv
    obtain ⟨x, -, rfl⟩ := hv
    exact ⟨rfl, rfl⟩
  | timestamp =>
    rw [value?, Option.some.injEq, timestamp] at hv
    split at hv
    · cases hv
    · split at hv
      · obtain ⟨x, -, rfl⟩ := map_eq_ok.1 hv
        exact ⟨rfl, rfl⟩
      · obtain ⟨x, -, rfl⟩ := map_eq_ok.1 hv
        exact ⟨rfl, rfl⟩
  | _ => simp only [value?, reduceCtorEq] at hv

structure Loader.Sound (h : Heap) (l : Loader) : Prop where
  grafts : h.Grafts l.heap
  built : ∀ (n : Nat) v, l.built[n]? = some (some v) → h.Own l.heap v
  waiting : ∀ e ∈ l.waiting, h.Own l.heap (.ref e.2)

namespace Loading

variable {α β : Type} {h : Heap} {l l' : Loader} {x : Loading α} {f : α → Loading β} {a : α} {b : β}

theorem run_bind_eq_ok : (x >>= f).run l = .ok (b, l') ↔
    ∃ a k, x.run l = .ok (a, k) ∧ (f a).run k = .ok (b, l') := by
  rw [StateT.run_bind]
  cases hx : x.run l with
  | error e =>
    constructor
    · intro hrun
      cases hrun
    · intro hrun
      obtain ⟨a, k, hrun, -⟩ := hrun
      cases hrun
  | ok r =>
    constructor
    · intro hrun
      exact ⟨r.1, r.2, rfl, hrun⟩
    · intro hrun
      obtain ⟨a, k, hr, hrun⟩ := hrun
      cases hr
      exact hrun

section OnNodes

def OnNodes (x : Loading α) : Prop :=
  ∃ f : Array Node → Except Stop (α × Array Node),
    ∀ l, x.run l = (f l.nodes).map fun r => (r.1, { l with nodes := r.2 })

theorem onNodes_pure (a : α) : OnNodes (pure a) :=
  ⟨fun ns => .ok (a, ns), fun _ => rfl⟩

theorem onNodes_throw (e : Stop) : OnNodes (throw e : Loading α) :=
  ⟨fun _ => .error e, fun _ => rfl⟩

theorem OnNodes.bind (hx : OnNodes x) (hf : ∀ a, OnNodes (f a)) : OnNodes (x >>= f) := by
  obtain ⟨g, hg⟩ := hx
  choose k hk using hf
  refine ⟨fun ns => g ns >>= fun r => k r.1 r.2, fun l => ?_⟩
  rw [StateT.run_bind, hg]
  dsimp only
  cases g l.nodes with
  | error e => rfl
  | ok r => exact hk r.1 { l with nodes := r.2 }

theorem onNodes_nodes {f : Array Node → Loading β} (hf : ∀ ns, OnNodes (f ns)) :
    OnNodes (get >>= fun l : Loader => f l.nodes) := by
  choose k hk using hf
  exact ⟨fun ns => k ns ns, fun l => hk l.nodes l⟩

theorem onNodes_each {step : α → Loading β} (hs : ∀ a, OnNodes (step a)) (xs : List α) :
    OnNodes (each step xs) := by
  induction xs with
  | nil => exact onNodes_pure []
  | cons x xs ih =>
    apply (hs x).bind
    intro y
    apply ih.bind
    intro ys
    exact onNodes_pure _

theorem onNodes_nodeAt (n : Nat) : OnNodes (nodeAt n) :=
  onNodes_nodes (f := fun ns => pure ((ns[n]?).getD .unknown)) fun _ => onNodes_pure _

theorem onNodes_entries (n : Nat) : OnNodes (entries n) := by
  apply (onNodes_nodeAt n).bind
  intro node
  split
  · exact onNodes_pure _
  · exact onNodes_throw _

theorem onNodes_setNode (n : Nat) (node : Node) : OnNodes (setNode n node) :=
  ⟨fun ns => .ok ((), ns.setIfInBounds n node), fun _ => rfl⟩

theorem onNodes_setEntries (n : Nat) (es : List (Nat × Nat)) : OnNodes (setEntries n es) :=
  (onNodes_nodeAt n).bind fun _ => onNodes_setNode n _

variable {flatten : Nat → Loading Unit}

theorem onNodes_sources (hf : ∀ n, OnNodes (flatten n)) (n : Nat) :
    OnNodes (sources flatten n) := by
  apply (onNodes_nodeAt n).bind
  intro node
  split
  · exact (hf n).bind fun _ => onNodes_entries n
  · apply (onNodes_each (fun item => ?_) _).bind
    · intro parts
      exact onNodes_pure _
    · exact (onNodes_entries item).bind fun _ => (hf item).bind fun _ => onNodes_entries item
  · exact onNodes_throw _

theorem onNodes_gather (hf : ∀ n, OnNodes (flatten n)) (n steps index : Nat)
    (merged : List (Nat × Nat)) : OnNodes (gather flatten n steps index merged) := by
  induction steps generalizing index merged with
  | zero => exact onNodes_pure merged
  | succ steps ih =>
    apply (onNodes_entries n).bind
    intro es
    split
    · exact onNodes_pure merged
    · apply (onNodes_nodeAt _).bind
      intro node
      split
      · apply (onNodes_setEntries n _).bind
        intro _
        apply (onNodes_sources hf _).bind
        intro more
        exact ih _ _
      · apply (onNodes_nodeAt _).bind
        intro node
        apply (onNodes_setNode _ _).bind
        intro _
        exact ih _ _
      · exact ih _ _

theorem onNodes_flattenWithin (depth n : Nat) : OnNodes (flattenWithin depth n) := by
  induction depth generalizing n with
  | zero => exact onNodes_throw _
  | succ depth ih =>
    apply onNodes_nodes (f := fun ns => do
      let merged ← gather (flattenWithin depth) n (2 * ns.size + (← entries n).length + 1) 0 []
      if !merged.isEmpty then setEntries n (merged ++ (← entries n)))
    intro ns
    apply (onNodes_entries n).bind
    intro es
    apply (onNodes_gather ih n _ _ _).bind
    intro merged
    split
    · apply (onNodes_entries n).bind
      intro es
      exact onNodes_setEntries n _
    · exact onNodes_pure ()

theorem onNodes_valueEntry (es : List (Nat × Nat)) : OnNodes (valueEntry es) := by
  induction es with
  | nil => exact onNodes_pure _
  | cons e es ih =>
    apply (onNodes_nodeAt e.1).bind
    intro node
    split
    · exact onNodes_pure _
    · exact ih

theorem onNodes_scalarText (depth n : Nat) : OnNodes (scalarText depth n) := by
  induction depth generalizing n with
  | zero => exact onNodes_throw _
  | succ depth ih =>
    apply (onNodes_nodeAt n).bind
    intro node
    split
    · exact onNodes_pure _
    · apply (onNodes_valueEntry _).bind
      intro found
      split
      · exact ih _
      · exact onNodes_throw _
    · exact onNodes_throw _

theorem onNodes_items (n : Nat) : OnNodes (items n) := by
  apply (onNodes_nodeAt n).bind
  intro node
  split
  · exact onNodes_pure _
  · exact onNodes_throw _

theorem onNodes_scalarValue (n : Nat) (tag : Tag) : OnNodes (scalarValue n tag) := by
  rw [scalarValue]
  split
  · exact onNodes_throw _
  · apply (onNodes_scalarText _ n).bind
    intro text
    apply (onNodes_nodeAt n).bind
    intro node
    split
    · exact onNodes_throw _
    · split
      · exact onNodes_pure _
      · exact onNodes_throw _
      · exact onNodes_throw _

end OnNodes

section Building

variable {k : Loader} {n : Nat} {v : Value} {es : List (Nat × Nat)} {done found : Entries Value}
  {node : Promptbook.Node}

structure Grows (h : Heap) (l l' : Loader) : Prop where
  sound : l'.Sound h
  keeps : ∀ v, h.Own l.heap v → h.Own l'.heap v

theorem Grows.refl (hl : l.Sound h) : Grows h l l :=
  ⟨hl, fun _ hv => hv⟩

theorem Grows.trans (hk : Grows h l k) (hl' : Grows h k l') : Grows h l l' :=
  ⟨hl'.sound, fun v hv => hl'.keeps v (hk.keeps v hv)⟩

theorem OnNodes.grows (hx : OnNodes x) (hl : l.Sound h) (hrun : x.run l = .ok (a, l')) :
    Grows h l l' := by
  obtain ⟨f, hf⟩ := hx
  rw [hf, map_eq_ok] at hrun
  obtain ⟨r, -, hrun⟩ := hrun
  cases hrun
  exact ⟨⟨hl.grafts, hl.built, hl.waiting⟩, fun _ hv => hv⟩

theorem Grows.store (hl : l.Sound h) (hs : node.isSealed = false)
    (hx : ∀ x ∈ node.elements, h.Own l.heap x) :
    Grows h l { l with heap := (l.heap.store node).2 } ∧
      h.Own (l.heap.store node).2 (l.heap.store node).1 := by
  obtain ⟨hg, hown⟩ := hl.grafts.store hs hx
  have hkeeps : ∀ v, h.Own l.heap v → h.Own (l.heap.store node).2 v :=
    fun v hv => hv.mono (.alloc l.heap node)
  exact ⟨⟨⟨hg, fun m v hv => hkeeps v (hl.built m v hv),
    fun e he => hkeeps _ (hl.waiting e he)⟩, hkeeps⟩, hown⟩

theorem isSealed_of_emptyNode? {tag : Tag} (hn : emptyNode? tag = some node) :
    node.isSealed = false ∧ node.elements = [] := by
  cases tag <;> cases hn <;> exact ⟨rfl, rfl⟩

theorem leaf_of_scalarValue {tag : Tag} (hrun : (scalarValue n tag).run l = .ok (v, l')) :
    v.isLiteral = true ∧ v.asRef? = none := by
  rw [scalarValue] at hrun
  split at hrun
  · cases hrun
  · obtain ⟨text, k, -, hrun⟩ := run_bind_eq_ok.1 hrun
    obtain ⟨node, k, -, hrun⟩ := run_bind_eq_ok.1 hrun
    split at hrun
    · cases hrun
    · split at hrun
      · next w hw =>
        cases hrun
        exact Scalar.leaf_of_value? hw
      · cases hrun
      · cases hrun

theorem built_set {heap : Heap} {built : Array (Option Value)}
    (hb : ∀ (m : Nat) u, built[m]? = some (some u) → h.Own heap u) (hv : h.Own heap v) :
    ∀ (m : Nat) u, (built.setIfInBounds n (some v))[m]? = some (some u) → h.Own heap u := by
  intro m u hu
  rw [Array.getElem?_setIfInBounds] at hu
  split at hu
  · split at hu
    · cases hu
      exact hv
    · cases hu
  · exact hb m u hu

theorem grows_build (hl : l.Sound h) (hrun : (build n).run l = .ok (v, l')) :
    Grows h l l' ∧ h.Own l'.heap v := by
  simp only [build] at hrun
  obtain ⟨_, _, hget, hrun⟩ := run_bind_eq_ok.1 hrun
  cases hget
  split at hrun
  · next w hw =>
    cases hrun
    exact ⟨.refl hl, hl.built n v hw⟩
  · obtain ⟨node, k, hnode, hrun⟩ := run_bind_eq_ok.1 hrun
    have hk := (onNodes_nodeAt n).grows hl hnode
    split at hrun
    · next empty he =>
      obtain ⟨_, _, hget, hrun⟩ := run_bind_eq_ok.1 hrun
      cases hget
      cases hrun
      obtain ⟨hs, hno⟩ := isSealed_of_emptyNode? he
      obtain ⟨hgrows, hown⟩ := Grows.store hk.sound hs (hno ▸ List.forall_mem_nil _)
      have hwaiting : ∀ e ∈ (n, (k.heap.alloc empty).1) :: k.waiting,
          h.Own (k.heap.store empty).2 (.ref e.2) :=
        List.forall_mem_cons.2 ⟨hown, hgrows.sound.waiting⟩
      exact ⟨hk.trans ⟨⟨hgrows.sound.grafts, built_set hgrows.sound.built hown, hwaiting⟩,
        hgrows.keeps⟩, hown⟩
    · obtain ⟨w, k', hw, hrun⟩ := run_bind_eq_ok.1 hrun
      cases hrun
      have hk' := (onNodes_scalarValue n _).grows hk.sound hw
      obtain ⟨hliteral, hleaf⟩ := leaf_of_scalarValue hw
      have hown : h.Own k'.heap v := Heap.own_of_not_ref hliteral hleaf
      exact ⟨hk.trans ⟨⟨hk'.sound.grafts, built_set hk'.sound.built hown, hk'.sound.waiting⟩,
        hk'.keeps⟩, hown⟩

theorem grows_each {step : α → Loading Value}
    (hs : ∀ a l v l', l.Sound h → (step a).run l = .ok (v, l') → Grows h l l' ∧ h.Own l'.heap v)
    {xs : List α} {vs : List Value} (hl : l.Sound h) (hrun : (each step xs).run l = .ok (vs, l')) :
    Grows h l l' ∧ ∀ v ∈ vs, h.Own l'.heap v := by
  induction xs generalizing l vs with
  | nil =>
    cases hrun
    exact ⟨.refl hl, List.forall_mem_nil _⟩
  | cons x xs ih =>
    obtain ⟨v, k, hv, hrun⟩ := run_bind_eq_ok.1 hrun
    obtain ⟨vs, k', hvs, hrun⟩ := run_bind_eq_ok.1 hrun
    cases hrun
    obtain ⟨hk, hown⟩ := hs x l v k hl hv
    obtain ⟨hk', howns⟩ := ih hk.sound hvs
    exact ⟨hk.trans hk', List.forall_mem_cons.2 ⟨hk'.keeps v hown, howns⟩⟩

theorem grows_buildEntries (hl : l.Sound h)
    (hdone : ∀ e ∈ done, h.Own l.heap e.1 ∧ h.Own l.heap e.2)
    (hrun : (buildEntries es done).run l = .ok (found, l')) :
    Grows h l l' ∧ ∀ e ∈ found, h.Own l'.heap e.1 ∧ h.Own l'.heap e.2 := by
  induction es generalizing l done with
  | nil =>
    cases hrun
    exact ⟨.refl hl, hdone⟩
  | cons e es ih =>
    obtain ⟨key, k, hkey, hrun⟩ := run_bind_eq_ok.1 hrun
    split at hrun
    · cases hrun
    · obtain ⟨v, k', hv, hrun⟩ := run_bind_eq_ok.1 hrun
      obtain ⟨_, _, hget, hrun⟩ := run_bind_eq_ok.1 hrun
      cases hget
      obtain ⟨hk, hkown⟩ := grows_build hl hkey
      obtain ⟨hk', hvown⟩ := grows_build hk.sound hv
      have hput := Entries.forall_mem_put (P := h.Own k'.heap) (h := k'.heap)
        (fun e he => ⟨hk'.keeps _ (hk.keeps _ (hdone e he).1),
          hk'.keeps _ (hk.keeps _ (hdone e he).2)⟩) (hk'.keeps key hkown) hvown
      obtain ⟨hgrows, hfound⟩ := ih hk'.sound hput hrun
      exact ⟨hk.trans (hk'.trans hgrows), hfound⟩

theorem grows_mappingEntries (hl : l.Sound h)
    (hrun : (mappingEntries n).run l = .ok (found, l')) :
    Grows h l l' ∧ ∀ e ∈ found, h.Own l'.heap e.1 ∧ h.Own l'.heap e.2 := by
  obtain ⟨_, k, hes, hrun⟩ := run_bind_eq_ok.1 hrun
  obtain ⟨_, k', hflat, hrun⟩ := run_bind_eq_ok.1 hrun
  obtain ⟨es, k'', hes', hrun⟩ := run_bind_eq_ok.1 hrun
  have hk := (onNodes_entries n).grows hl hes
  have hk' := hk.trans ((onNodes_flattenWithin _ n).grows hk.sound hflat)
  have hk'' := hk'.trans ((onNodes_entries n).grows hk'.sound hes')
  obtain ⟨hgrows, hfound⟩ := grows_buildEntries hk''.sound (List.forall_mem_nil _) hrun
  exact ⟨hk''.trans hgrows, hfound⟩

theorem grows_buildPair (hl : l.Sound h) (hrun : (buildPair n).run l = .ok (v, l')) :
    Grows h l l' ∧ h.Own l'.heap v := by
  obtain ⟨es, k, hes, hrun⟩ := run_bind_eq_ok.1 hrun
  have hk := (onNodes_entries n).grows hl hes
  split at hrun
  · obtain ⟨key, k₁, hkey, hrun⟩ := run_bind_eq_ok.1 hrun
    obtain ⟨value, k₂, hvalue, hrun⟩ := run_bind_eq_ok.1 hrun
    obtain ⟨hk₁, hkown⟩ := grows_build hk.sound hkey
    obtain ⟨hk₂, hvown⟩ := grows_build hk₁.sound hvalue
    cases hrun
    have hpair : ∀ x ∈ (Node.tuple [key, value]).elements, h.Own k₂.heap x :=
      List.forall_mem_cons.2 ⟨hk₂.keeps key hkown, List.forall_mem_singleton.2 hvown⟩
    obtain ⟨hgrows, hown⟩ := Grows.store hk₂.sound rfl hpair
    exact ⟨hk.trans (hk₁.trans (hk₂.trans hgrows)), hown⟩
  · cases hrun

theorem grows_contents (hl : l.Sound h) (hrun : (contents n).run l = .ok (node, l')) :
    Grows h l l' ∧ node.isSealed = false ∧ ∀ x ∈ node.elements, h.Own l'.heap x := by
  obtain ⟨_, k, hnode, hrun⟩ := run_bind_eq_ok.1 hrun
  have hk := (onNodes_nodeAt n).grows hl hnode
  split at hrun
  · obtain ⟨found, k', hfound, hrun⟩ := run_bind_eq_ok.1 hrun
    cases hrun
    obtain ⟨hk', howns⟩ := grows_mappingEntries hk.sound hfound
    exact ⟨hk.trans hk', rfl, Heap.forall_mem_elements howns⟩
  · obtain ⟨found, k', hfound, hrun⟩ := run_bind_eq_ok.1 hrun
    cases hrun
    obtain ⟨hk', howns⟩ := grows_mappingEntries hk.sound hfound
    exact ⟨hk.trans hk', rfl, List.forall_mem_map.2 fun e he => (howns e he).1⟩
  · obtain ⟨ns, k', hns, hrun⟩ := run_bind_eq_ok.1 hrun
    obtain ⟨vs, k'', hvs, hrun⟩ := run_bind_eq_ok.1 hrun
    cases hrun
    have hk' := hk.trans ((onNodes_items n).grows hk.sound hns)
    obtain ⟨hk'', howns⟩ := grows_each (fun _ _ _ _ => grows_build) hk'.sound hvs
    exact ⟨hk'.trans hk'', rfl, howns⟩
  · obtain ⟨ns, k', hns, hrun⟩ := run_bind_eq_ok.1 hrun
    obtain ⟨vs, k'', hvs, hrun⟩ := run_bind_eq_ok.1 hrun
    cases hrun
    have hk' := hk.trans ((onNodes_items n).grows hk.sound hns)
    obtain ⟨hk'', howns⟩ := grows_each (fun _ _ _ _ => grows_buildPair) hk'.sound hvs
    exact ⟨hk'.trans hk'', rfl, howns⟩

theorem grows_fill {r : Ref} {u : Unit} (hl : l.Sound h) (hr : h.Own l.heap (.ref r))
    (hrun : (fill n r).run l = .ok (u, l')) : Grows h l l' := by
  obtain ⟨node, k, hnode, hrun⟩ := run_bind_eq_ok.1 hrun
  cases hrun
  obtain ⟨hk, hopen, howns⟩ := grows_contents hl hnode
  have hkeeps : ∀ v, h.Own k.heap v → h.Own (k.heap.set r node) v := fun v hv => hv.set r node
  exact hk.trans ⟨⟨hk.sound.grafts.set (hk.keeps _ hr) hopen howns,
    fun m v hv => hkeeps v (hk.sound.built m v hv),
    fun e he => hkeeps _ (hk.sound.waiting e he)⟩, hkeeps⟩

theorem grows_fillEach {waiting : List (Nat × Ref)} {us : List Unit} (hl : l.Sound h)
    (hw : ∀ e ∈ waiting, h.Own l.heap (.ref e.2))
    (hrun : (each (fun e => fill e.1 e.2) waiting).run l = .ok (us, l')) : Grows h l l' := by
  induction waiting generalizing l us with
  | nil =>
    cases hrun
    exact .refl hl
  | cons e waiting ih =>
    obtain ⟨_, k, hfill, hrun⟩ := run_bind_eq_ok.1 hrun
    obtain ⟨us, k', hrest, hrun⟩ := run_bind_eq_ok.1 hrun
    cases hrun
    obtain ⟨he, hw⟩ := List.forall_mem_cons.1 hw
    have hk := grows_fill hl he hfill
    exact hk.trans (ih hk.sound (fun e he => hk.keeps _ (hw e he)) hrest)

theorem grows_fillAll {rounds : Nat} {u : Unit} (hl : l.Sound h)
    (hrun : (fillAll rounds).run l = .ok (u, l')) : Grows h l l' := by
  induction rounds generalizing l with
  | zero =>
    cases hrun
    exact .refl hl
  | succ rounds ih =>
    obtain ⟨_, _, hget, hrun⟩ := run_bind_eq_ok.1 hrun
    cases hget
    split at hrun
    · cases hrun
      exact .refl hl
    · obtain ⟨_, k, hclear, hrun⟩ := run_bind_eq_ok.1 hrun
      cases hclear
      obtain ⟨us, k', hfill, hrun⟩ := run_bind_eq_ok.1 hrun
      have hcleared : Loader.Sound h { l with waiting := [] } :=
        ⟨hl.grafts, hl.built, List.forall_mem_nil _⟩
      have hk := grows_fillEach hcleared
        (fun e he => hl.waiting e (List.mem_reverse.1 he)) hfill
      have hl' := ih hk.sound hrun
      exact ⟨hl'.sound, fun v hv => hl'.keeps v (hk.keeps v hv)⟩

end Building

end Loading

variable {h k : Heap} {v : Value} {s : List Char}

theorem Graph.grafts_toValue {g : Graph} (hrun : g.toValue h = .ok (v, k)) :
    h.Grafts k ∧ h.Own k v := by
  rw [toValue] at hrun
  split at hrun
  · cases hrun
    exact ⟨.refl h, Heap.own_of_not_ref rfl rfl⟩
  · next root _ =>
    obtain ⟨⟨u, k'⟩, hr, hrun⟩ := bind_eq_ok.1 hrun
    cases hrun
    obtain ⟨w, l, hbuild, hr⟩ := Loading.run_bind_eq_ok.1 hr
    obtain ⟨_, l', hfill, hr⟩ := Loading.run_bind_eq_ok.1 hr
    cases hr
    have hstart : Loader.Sound h { nodes := g.nodes, built := g.nodes.map fun _ => none, heap := h }
        := by
      refine ⟨.refl h, fun n v hv => ?_, List.forall_mem_nil _⟩
      rw [Array.getElem?_map] at hv
      cases hn : g.nodes[n]? with
      | none => simp [hn] at hv
      | some node => simp [hn] at hv
    obtain ⟨hl, hown⟩ := Loading.grows_build hstart hbuild
    have hl' := Loading.grows_fillAll hl.sound hfill
    exact ⟨hl'.sound.grafts, hl'.keeps _ hown⟩

theorem grafts_load (hrun : load h s = .ok (v, k)) : h.Grafts k ∧ h.Own k v := by
  obtain ⟨g, -, hrun⟩ := bind_eq_ok.1 hrun
  exact g.grafts_toValue hrun

end Promptbook.Yaml

import Promptbook.Proofs.Catalog.File
import Promptbook.Proofs.Heap.Compared
import Promptbook.Proofs.Heap.Shifted

namespace Promptbook

variable {a d : Nat} {h k : Heap}

namespace Heap

structure EndsShifted (a d : Nat) {α : Type} (f : α → α) (x y : α × Heap) : Prop where
  value : y.1 = f x.1
  heap : Shifted a d x.2 y.2

mutual

theorem ofJson_shifted {h k : Heap} (hs : Shifted a d h k) : ∀ j : Json,
    EndsShifted a d (Value.map (Ref.later a d)) (h.ofJson j) (k.ofJson j)
  | .null | .bool _ | .int _ | .real _ | .text _ => ⟨rfl, hs⟩
  | .list js => by
    have hitems := ofJsonItems_shifted hs js
    have hstore := hitems.heap.store (.list (h.ofJsonItems js).1)
    simp only [ofJson, hitems.value]
    exact ⟨hstore.2, hstore.1⟩
  | .object ms => by
    have hmembers := ofJsonMembers_shifted hs [] ms
    have hstore := hmembers.heap.store (.dict (h.ofJsonMembers [] ms).1)
    rw [List.map_nil] at hmembers hstore
    simp only [ofJson, hmembers.value]
    exact ⟨hstore.2, hstore.1⟩

theorem ofJsonItems_shifted {h k : Heap} (hs : Shifted a d h k) : ∀ js : List Json,
    EndsShifted a d (List.map (Value.map (Ref.later a d))) (h.ofJsonItems js) (k.ofJsonItems js)
  | [] => ⟨rfl, hs⟩
  | j :: js => by
    have hj := ofJson_shifted hs j
    have hjs := ofJsonItems_shifted hj.heap js
    refine ⟨?_, hjs.heap⟩
    simp only [ofJsonItems, hj.value, hjs.value, List.map_cons]

theorem ofJsonMembers_shifted {h k : Heap} (hs : Shifted a d h k) (done : Entries Value) :
    ∀ ms : List (String × Json),
      EndsShifted a d (List.map fun e => (e.1.map (Ref.later a d), e.2.map (Ref.later a d)))
        (h.ofJsonMembers done ms)
        (k.ofJsonMembers (done.map fun e => (e.1.map (Ref.later a d), e.2.map (Ref.later a d))) ms)
  | [] => ⟨rfl, hs⟩
  | (name, j) :: ms => by
    have hj := ofJson_shifted hs j
    have hms := ofJsonMembers_shifted hj.heap (Entries.putText name (h.ofJson j).1 done) ms
    simp only [ofJsonMembers, hj.value, Entries.putText_map]
    exact hms

end

end Heap

open Heap (Shifted EndsShifted)

namespace Yaml

structure Loader.Shifted (a d : Nat) (l l' : Loader) : Prop where
  nodes : l'.nodes = l.nodes
  built : l'.built = l.built.map (Option.map (Value.map (Ref.later a d)))
  heap : Heap.Shifted a d l.heap l'.heap
  waiting : l'.waiting = l.waiting.map fun e => (e.1, e.2.later a d)

namespace Loading

variable {α β : Type} {r : α → α} {s : β → β} {x y : Loading α} {f g : α → Loading β}

def Alike (a d : Nat) (r : α → α) (x y : Loading α) : Prop :=
  ∀ l l', Loader.Shifted a d l l' →
    Matched (fun p q => q.1 = r p.1 ∧ Loader.Shifted a d p.2 q.2) (x.run l) (y.run l')

theorem alike_pure (v : α) : Alike a d r (pure v) (pure (r v)) :=
  fun _ _ hl => .ok ⟨rfl, hl⟩

theorem alike_throw (e : Stop) : Alike a d r (throw e) (throw e) :=
  fun _ _ _ => .error e

theorem Alike.bind (hx : Alike a d r x y) (hf : ∀ v, Alike a d s (f v) (g (r v))) :
    Alike a d s (x >>= f) (y >>= g) := by
  intro l l' hl
  rw [StateT.run_bind, StateT.run_bind]
  apply (hx l l' hl).bind
  intro p q hpq
  obtain ⟨hvalue, hstate⟩ := hpq
  rw [hvalue]
  exact hf p.1 p.2 q.2 hstate

theorem alike_get {f g : Loader → Loading β}
    (hf : ∀ l l', Loader.Shifted a d l l' → Matched (fun p q => q.1 = s p.1 ∧
      Loader.Shifted a d p.2 q.2) ((f l).run l) ((g l').run l')) :
    Alike a d s (get >>= f) (get >>= g) :=
  hf

theorem OnNodes.alike (hx : OnNodes x) : Alike a d id x x := by
  obtain ⟨f, hf⟩ := hx
  intro l l' hl
  rw [hf, hf, hl.nodes]
  cases f l.nodes with
  | error e => exact .error e
  | ok p => exact .ok ⟨rfl, rfl, hl.built, hl.heap, hl.waiting⟩

theorem alike_each {γ : Type} {c : γ → γ} {step step' : γ → Loading β}
    (hs : ∀ x, Alike a d s (step x) (step' (c x))) (xs : List γ) :
    Alike a d (List.map s) (each step xs) (each step' (xs.map c)) := by
  induction xs with
  | nil => exact alike_pure []
  | cons x xs ih =>
    apply (hs x).bind
    intro y
    apply ih.bind
    intro ys
    exact alike_pure (y :: ys)

theorem alike_scalarValue (n : Nat) (tag : Tag) :
    Alike a d (Value.map (Ref.later a d)) (scalarValue n tag) (scalarValue n tag) := by
  intro l l' hl
  obtain ⟨e, hx, hy⟩ | ⟨p, q, hx, hy, hvalue, hstate⟩ :=
    ((onNodes_scalarValue n tag).alike l l' hl).inv
  · rw [hx, hy]
    exact .error e
  · have hleaf := (leaf_of_scalarValue hx).2
    rw [hx, hy]
    have hvalue : q.1 = p.1 := hvalue
    refine .ok ⟨hvalue.trans (Value.map_eq_self ?_).symm, hstate⟩
    intro ref href
    rw [href] at hleaf
    cases hleaf

theorem map_of_emptyNode? {m : Ref → Ref} {tag : Tag} {node : Promptbook.Node}
    (hn : emptyNode? tag = some node) : node.map m = node := by
  cases tag <;> cases hn <;> rfl

theorem alike_reserve (n : Nat) {node : Promptbook.Node}
    (hnode : node.map (Ref.later a d) = node) :
    Alike a d (Value.map (Ref.later a d))
      (do
        let l ← get
        let (r, heap) := l.heap.alloc node
        set { l with heap, waiting := (n, r) :: l.waiting }
        pure (Value.ref r))
      (do
        let l ← get
        let (r, heap) := l.heap.alloc node
        set { l with heap, waiting := (n, r) :: l.waiting }
        pure (Value.ref r)) := by
  apply alike_get
  intro l l' hl
  have halloc := hl.heap.alloc node
  have href := hl.heap.ref_alloc node node
  rw [hnode] at halloc
  refine .ok ⟨congrArg Value.ref href, hl.nodes, hl.built, halloc, ?_⟩
  change (n, (l'.heap.alloc node).1) :: l'.waiting = _
  rw [href, hl.waiting]
  rfl

theorem alike_note (n : Nat) {x y : Loading Value}
    (hx : Alike a d (Value.map (Ref.later a d)) x y) :
    Alike a d (Value.map (Ref.later a d))
      (do
        let v ← x
        modify fun l => { l with built := l.built.setIfInBounds n (some v) }
        return v)
      (do
        let v ← y
        modify fun l => { l with built := l.built.setIfInBounds n (some v) }
        return v) := by
  apply hx.bind
  intro v l l' hl
  refine .ok ⟨rfl, hl.nodes, ?_, hl.heap, hl.waiting⟩
  change l'.built.setIfInBounds n _ = _
  rw [hl.built, Array.map_setIfInBounds]
  rfl

theorem alike_build (n : Nat) : Alike a d (Value.map (Ref.later a d)) (build n) (build n) := by
  apply alike_get
  intro l l' hl
  rw [hl.built, Array.getElem?_map]
  rcases l.built[n]? with _ | _ | v
  case some.some => exact .ok ⟨rfl, hl⟩
  all_goals
    refine ((onNodes_nodeAt n).alike.bind fun node => ?_) l l' hl
    dsimp only [id]
    cases he : emptyNode? node.tag with
    | none => exact alike_note n (alike_scalarValue n node.tag)
    | some empty =>
      exact alike_note n (alike_reserve n (map_of_emptyNode? he))

abbrev moved (a d : Nat) (e : Value × Value) : Value × Value :=
  (e.1.map (Ref.later a d), e.2.map (Ref.later a d))

theorem alike_buildEntries (es : List (Nat × Nat)) (done : Entries Value) :
    Alike a d (List.map (moved a d)) (buildEntries es done)
      (buildEntries es (done.map (moved a d))) := by
  induction es generalizing done with
  | nil => exact alike_pure done
  | cons e es ih =>
    apply (alike_build e.1).bind
    intro key
    rw [Value.asRef?_map, Option.isSome_map]
    split
    · exact alike_throw _
    · apply (alike_build e.2).bind
      intro v
      apply alike_get
      intro l l' hl
      rw [Entries.put_map hl.heap.renamed]
      exact ih _ l l' hl

theorem alike_mappingEntries (n : Nat) :
    Alike a d (List.map (moved a d)) (mappingEntries n) (mappingEntries n) := by
  apply (onNodes_entries n).alike.bind
  intro _
  apply (onNodes_flattenWithin _ n).alike.bind
  intro _
  apply (onNodes_entries n).alike.bind
  intro es
  exact alike_buildEntries es []

theorem alike_buildPair (n : Nat) :
    Alike a d (Value.map (Ref.later a d)) (buildPair n) (buildPair n) := by
  apply (onNodes_entries n).alike.bind
  intro es
  rcases es with _ | ⟨e, _ | ⟨e', es⟩⟩
  · exact alike_throw _
  · apply (alike_build e.1).bind
    intro key
    apply (alike_build e.2).bind
    intro v
    apply alike_get
    intro l l' hl
    obtain ⟨hheap, hpair⟩ := hl.heap.store (.tuple [key, v])
    exact .ok ⟨hpair, hl.nodes, hl.built, hheap, hl.waiting⟩
  · exact alike_throw _

theorem alike_contents (n : Nat) :
    Alike a d (Node.map (Ref.later a d)) (contents n) (contents n) := by
  have hitems {step : Nat → Loading Value}
      (hstep : ∀ n, Alike a d (Value.map (Ref.later a d)) (step n) (step n)) :
      Alike a d (Node.map (Ref.later a d)) (do return .list (← each step (← items n)))
        (do return .list (← each step (← items n))) := by
    apply (onNodes_items n).alike.bind
    intro ns
    have heach := alike_each (c := id) hstep ns
    rw [List.map_id] at heach
    apply heach.bind
    intro vs
    exact alike_pure (Promptbook.Node.list vs)
  apply (onNodes_nodeAt n).alike.bind
  intro node
  dsimp only [id]
  split
  · apply (alike_mappingEntries n).bind
    intro es
    exact alike_pure (Promptbook.Node.dict es)
  · apply (alike_mappingEntries n).bind
    intro es
    have hkeys : ((es.map (moved a d)).map (·.1)) =
        (es.map (·.1)).map (Value.map (Ref.later a d)) := by
      rw [List.map_map, List.map_map]
      rfl
    rw [hkeys]
    exact alike_pure (Promptbook.Node.set (es.map (·.1)))
  · exact hitems alike_build
  · exact hitems alike_buildPair

theorem alike_fill (n : Nat) (r : Ref) :
    Alike a d id (fill n r) (fill n (r.later a d)) := by
  apply (alike_contents n).bind
  intro node l l' hl
  exact .ok ⟨rfl, hl.nodes, hl.built, hl.heap.set r node, hl.waiting⟩

theorem alike_fillAll (rounds : Nat) : Alike a d id (fillAll rounds) (fillAll rounds) := by
  induction rounds with
  | zero => exact alike_pure ()
  | succ rounds ih =>
    apply alike_get
    intro l l' hl
    rw [hl.waiting]
    cases l.waiting with
    | nil => exact .ok ⟨rfl, hl⟩
    | cons e waiting =>
      have hclear : Alike a d id (modify fun l => { l with waiting := [] } : Loading Unit)
          (modify fun l => { l with waiting := [] }) :=
        fun l l' hl => .ok ⟨rfl, hl.nodes, hl.built, hl.heap, rfl⟩
      have hfill : Alike a d (List.map id)
          (each (fun e : Nat × Ref => fill e.1 e.2) (e :: waiting).reverse)
          (each (fun e => fill e.1 e.2)
            ((e :: waiting).reverse.map fun e => (e.1, e.2.later a d))) :=
        alike_each (fun e => alike_fill e.1 e.2) _
      rw [List.map_reverse] at hfill
      exact (hclear.bind fun _ => hfill.bind fun _ => ih) l l' hl

end Loading

theorem Graph.toValue_shifted (hs : Heap.Shifted a d h k) (g : Graph) :
    Matched (EndsShifted a d (Value.map (Ref.later a d))) (g.toValue h) (g.toValue k) := by
  rw [toValue, toValue]
  cases g.root with
  | none => exact .ok ⟨rfl, hs⟩
  | some root =>
    have hstart : Loader.Shifted a d
        { nodes := g.nodes, built := g.nodes.map fun _ => none, heap := h }
        { nodes := g.nodes, built := g.nodes.map fun _ => none, heap := k } :=
      ⟨rfl, by simp only [Array.map_map, Function.comp_def, Option.map_none], hs, rfl⟩
    have hbuild (v : Value) : Loading.Alike a d (Value.map (Ref.later a d))
        (do
          Loading.fillAll (g.nodes.size + 1)
          return v)
        (do
          Loading.fillAll (g.nodes.size + 1)
          return v.map (Ref.later a d)) :=
      (Loading.alike_fillAll _).bind fun _ => Loading.alike_pure v
    apply ((Loading.alike_build root).bind hbuild _ _ hstart).bind
    intro p q hpq
    exact .ok ⟨hpq.1, hpq.2.heap⟩

theorem load_shifted (hs : Heap.Shifted a d h k) (s : List Char) :
    Matched (EndsShifted a d (Value.map (Ref.later a d))) (load h s) (load k s) :=
  Matched.bind_same fun g => g.toValue_shifted hs

end Yaml

theorem Format.read_shifted (hs : Shifted a d h k) (s : List Char) (f : Format) :
    Matched (EndsShifted a d (Value.map (Ref.later a d))) (f.read h s) (f.read k s) := by
  cases f with
  | json =>
    rw [read, read]
    cases Json.parse Heap.walkLimit s with
    | ok j => exact .ok (Heap.ofJson_shifted hs j)
    | error e => cases e <;> exact .error _
  | yaml =>
    rw [read, read]
    obtain ⟨e, hx, hy⟩ | ⟨x, y, hx, hy, hxy⟩ := (Yaml.load_shifted hs s).inv
    · rw [hx, hy]
      cases e <;> exact .error _
    · rw [hx, hy]
      exact .ok hxy

namespace Definition

variable (hs : Shifted a d h k)
include hs

theorem ofText_shifted (p : FilePath) (f : Format) (cs : List Char) :
    Matched (EndsShifted a d (Value.map (Ref.later a d))) (ofText p h f cs) (ofText p k f cs) := by
  rw [ofText, ofText]
  obtain ⟨e, hx, hy⟩ | ⟨x, y, hx, hy, hxy⟩ := (f.read_shifted hs cs).inv
  · rw [hx, hy]
    cases e <;> exact .error _
  · rw [hx, hy]
    have hdict := hxy.heap.renamed.isDict_eq x.1
    rw [← hxy.value] at hdict
    simp only [hdict]
    split
    · exact .ok hxy
    · exact .error _

theorem read_shifted (t : FileTree) (p : FilePath) :
    Matched (EndsShifted a d (Value.map (Ref.later a d))) (read t p h) (read t p k) := by
  cases hf : p.format? with
  | none =>
    simp only [read, hf]
    exact .error _
  | some f =>
    rw [read_eq hf, read_eq hf]
    cases t.text p with
    | error cause => cases cause <;> exact .error _
    | ok cs => exact ofText_shifted hs p f cs

end Definition

end Promptbook

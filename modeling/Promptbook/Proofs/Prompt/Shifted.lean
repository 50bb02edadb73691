import Promptbook.Proofs.Heap.Compared
import Promptbook.Proofs.Heap.Shifted
import Promptbook.Proofs.Prompt.Made
import Promptbook.Proofs.Prompt.Parts

namespace Promptbook

variable {a d : Nat} {h k : Heap}

namespace Heap

/-- Two steps ended with the same thing but for its places, and with heaps that hold the same
containers and no sealed mapping. -/
structure MadeAlike (a d : Nat) {α : Type} (f : α → α) (x y : α × Heap) : Prop where
  value : y.1 = f x.1
  heap : Shifted a d x.2 y.2
  sealFree : x.2.SealFree

theorem SealFree.store {node : Node} (hf : h.SealFree)
    (hn : ∀ ks message, node ≠ .sealed ks message) : (h.store node).2.SealFree := by
  intro r ks message hr
  by_cases hnew : r = (h.alloc node).1
  · subst hnew
    exact hn ks message (Option.some.inj ((get?_alloc h node).symm.trans hr))
  · exact hf r ks message ((get?_alloc_of_ne hnew).symm.trans hr)

theorem Renamed.orElse_eq {m : Ref → Ref} (hm : Renamed m h k) (v w : Value) :
    k.orElse (v.map m) (w.map m) = (h.orElse v w).map (Value.map m) := by
  rw [orElse, orElse, hm.truth_eq]
  cases h.truth v with
  | error e => rfl
  | ok given => cases given <;> rfl

theorem Renamed.asCategory_eq {m : Ref → Ref} (hm : Renamed m h k) (v : Value) :
    k.asCategory (v.map m) = h.asCategory v := by
  rw [asCategory, asCategory, Value.toCategory?, Value.toCategory?, Value.asText?_map, hm.quote_eq]

theorem Renamed.recordMapping_eq {m : Ref → Ref} (hm : Renamed m h k) (v : Value) :
    k.recordMapping (v.map m) = (h.recordMapping v).map (Mapping.map m) := by
  rw [recordMapping, recordMapping, hm.truth_eq, hm.asMapping_eq]
  cases h.truth v with
  | error e => rfl
  | ok given => cases given <;> rfl

section Entries

variable {m : Ref → Ref} (hm : Renamed m h k) (hf : h.SealFree)
include hm hf

theorem Renamed.entryOf_eq (index : Nat) (item : Value) :
    k.entryOf index (item.map m) =
      (h.entryOf index item).map fun e => (e.1.map m, e.2.map m) := by
  rw [entryOf, entryOf, hm.iterate_eq hf]
  cases h.iterate item with
  | error e => rfl
  | ok xs =>
    rcases xs with _ | ⟨key, _ | ⟨v, _ | ⟨w, xs⟩⟩⟩
    · rfl
    · rfl
    · simp only [Except.map, List.map_cons, List.map_nil, hm.checkKey_eq]
      cases h.checkKey key <;> rfl
    · simp only [Except.map, List.map_cons, List.length_cons, List.length_map]

theorem Renamed.entriesOfPairs_eq (index : Nat) (done : Entries Value) (items : List Value) :
    k.entriesOfPairs index (done.map fun e => (e.1.map m, e.2.map m))
        (items.map (Value.map m)) =
      (h.entriesOfPairs index done items).map (List.map fun e => (e.1.map m, e.2.map m)) := by
  induction items generalizing index done with
  | nil => rfl
  | cons item items ih =>
    rw [List.map_cons, entriesOfPairs, entriesOfPairs, hm.entryOf_eq hf, map_bind]
    cases h.entryOf index item with
    | error e => rfl
    | ok e => simp only [ok_bind, Entries.put_map hm, ih]

theorem Renamed.entriesOf_eq (v : Value) :
    k.entriesOf (v.map m) =
      (h.entriesOf v).map (List.map fun e => (e.1.map m, e.2.map m)) := by
  rw [entriesOf, entriesOf, hm.mapping?_eq]
  cases h.mapping? v with
  | some c => exact c.items_map
  | none =>
    have hpairs := hm.entriesOfPairs_eq hf 0 []
    rw [List.map_nil] at hpairs
    simp only [Option.map_none, hm.iterate_eq hf, map_bind, hpairs]
    cases h.iterate v <;> rfl

end Entries

section Shifted

variable (hs : Shifted a d h k) (hf : h.SealFree)
include hs hf

theorem Shifted.madeAlike_store (node : Node) (hn : ∀ ks message, node ≠ .sealed ks message) :
    MadeAlike a d (Value.map (Ref.later a d)) (h.store node)
      (k.store (node.map (Ref.later a d))) :=
  ⟨(hs.store node).2, (hs.store node).1, hf.store hn⟩

theorem Shifted.newListOr (v : Value) :
    Matched (MadeAlike a d (Value.map (Ref.later a d))) (h.newListOr v)
      (k.newListOr (v.map (Ref.later a d))) := by
  rw [Heap.newListOr, Heap.newListOr, hs.renamed.truth_eq]
  apply Matched.bind_same
  intro given
  split
  · rw [newList, newList, hs.renamed.iterate_eq hf, map_bind]
    cases h.iterate v with
    | error e => exact .error e
    | ok xs => exact .ok (hs.madeAlike_store hf (.list xs) fun _ _ he => by cases he)
  · exact .ok (hs.madeAlike_store hf (.list []) fun _ _ he => by cases he)

theorem Shifted.newDictOr (v : Value) :
    Matched (MadeAlike a d (Value.map (Ref.later a d))) (h.newDictOr v)
      (k.newDictOr (v.map (Ref.later a d))) := by
  rw [Heap.newDictOr, Heap.newDictOr, hs.renamed.truth_eq]
  apply Matched.bind_same
  intro given
  split
  · rw [newDict, newDict, hs.renamed.entriesOf_eq hf, map_bind]
    cases h.entriesOf v with
    | error e => exact .error e
    | ok es => exact .ok (hs.madeAlike_store hf (.dict es) fun _ _ he => by cases he)
  · exact .ok (hs.madeAlike_store hf (.dict []) fun _ _ he => by cases he)

end Shifted

end Heap

open Heap (Shifted MadeAlike)

variable (hs : Shifted a d h k) (hf : h.SealFree)
include hs hf

theorem Hints.ofValue_shifted (data : Value) :
    Matched (MadeAlike a d (Hints.map (Ref.later a d))) (Hints.ofValue h data)
      (Hints.ofValue k (data.map (Ref.later a d))) := by
  simp only [ofValue, hs.renamed.recordMapping_eq]
  apply Matched.bind_map
  intro c
  simp only [Mapping.field_map, Mapping.get_map]
  apply Matched.bind_map
  intro languages
  apply (hs.newListOr hf languages).bind
  intro x y hxy
  apply Matched.bind_map
  intro context
  apply (hxy.heap.newListOr hxy.sealFree context).bind
  intro x' y' hxy'
  apply Matched.bind_map
  intro notes
  apply Matched.bind_map
  intro legacy
  have hlegacy : (legacy.map (Value.map (Ref.later a d))).getD (.bool false) =
      (legacy.getD (.bool false)).map (Ref.later a d) := by
    cases legacy <;> rfl
  rw [hlegacy, hxy'.heap.renamed.truth_eq]
  apply Matched.bind_same
  intro given
  refine .ok ⟨?_, hxy'.heap, hxy'.sealFree⟩
  simp only [map, hxy.value, hxy'.value]
  rfl

theorem Hints.ofValueOrNone_shifted (hinted : Bool) (data : Value) :
    Matched (MadeAlike a d (Option.map (Hints.map (Ref.later a d))))
      (if hinted then (Hints.ofValue h data).map fun r => (some r.1, r.2)
        else pure (Option.none, h))
      (if hinted then (Hints.ofValue k (data.map (Ref.later a d))).map fun r => (some r.1, r.2)
        else pure (Option.none, k)) := by
  split
  · apply (Hints.ofValue_shifted hs hf data).map
    intro x y hxy
    exact ⟨congrArg some hxy.value, hxy.heap, hxy.sealFree⟩
  · exact .ok ⟨rfl, hs, hf⟩

theorem Options.ofValue_shifted (data : Value) :
    Matched (MadeAlike a d (Options.map (Ref.later a d))) (Options.ofValue h data)
      (Options.ofValue k (data.map (Ref.later a d))) := by
  simp only [ofValue, hs.renamed.recordMapping_eq]
  apply Matched.bind_map
  intro c
  simp only [Mapping.field_map]
  apply Matched.bind_map
  intro fields
  apply (hs.newListOr hf fields).bind
  intro x y hxy
  apply Matched.bind_map
  intro defaults
  apply (hxy.heap.newDictOr hxy.sealFree defaults).bind
  intro x' y' hxy'
  apply Matched.bind_map
  intro rules
  apply (hxy'.heap.newDictOr hxy'.sealFree rules).bind
  intro z w hzw
  apply Matched.bind_map
  intro focus
  apply Matched.bind_map
  intro threshold
  refine .ok ⟨?_, hzw.heap, hzw.sealFree⟩
  simp only [map, hxy.value, hxy'.value, hzw.value]

namespace Prompt

omit hs hf in
theorem textField_renamed {m : Ref → Ref} (hm : Heap.Renamed m h k) (c : Mapping)
    (name default : String) :
    textField k (c.map m) name default = (textField h c name default).map (Value.map m) := by
  have hgiven (o : Option Value) :
      (o.map (Value.map m)).getD (.text default) = (o.getD (.text default)).map m := by
    cases o <;> rfl
  simp only [textField, Mapping.get_map, map_bind, hgiven, hm.text_eq]
  cases c.get name with
  | error e => rfl
  | ok o => cases hr : h.text (o.getD (.text default)) <;> simp only [ok_bind, hr] <;> rfl

omit hs hf in
theorem nameOr_renamed {m : Ref → Ref} (hm : Heap.Renamed m h k) (named : Bool)
    (given : Value) (other : Except Fault Value) :
    (if named then (k.text (given.map m)).map Value.text else other.map (Value.map m)) =
    (if named then (h.text given).map Value.text else other).map (Value.map m) := by
  rw [hm.text_eq]
  split
  · cases h.text given <;> rfl
  · rfl

/-- Data makes the same prompt but for its places, wherever the prompt's own containers are put. -/
theorem ofValue_shifted (serial serial' : Nat) (data : Value) :
    Matched (MadeAlike a d fun p => { p.map (Ref.later a d) with serial := serial' })
      (ofValue h serial data) (ofValue k serial' (data.map (Ref.later a d))) := by
  have hm := hs.renamed
  have horElse (v : Value) (s : String) :
      k.orElse (v.map (Ref.later a d)) (.text s) =
        (h.orElse v (.text s)).map (Value.map (Ref.later a d)) :=
    hm.orElse_eq v (.text s)
  simp only [ofValue, bind_ite, hm.asMapping_eq]
  apply Matched.bind_map
  intro c
  simp only [Mapping.field_map, textField_renamed hm]
  apply Matched.bind_map
  intro category
  rw [horElse]
  apply Matched.bind_map
  intro category
  apply Matched.bind_map
  intro body
  apply Matched.bind_map
  intro id
  apply Matched.bind_map
  intro given
  rw [hm.truth_eq]
  apply Matched.bind_same
  intro named
  rw [nameOr_renamed hm]
  apply Matched.bind_map
  intro name
  apply Matched.bind_map
  intro description
  rw [horElse]
  apply Matched.bind_map
  intro description
  rw [hm.asCategory_eq]
  apply Matched.bind_same
  intro category
  apply Matched.bind_map
  intro version
  apply Matched.bind_map
  intro schemaVersion
  apply Matched.bind_map
  intro config
  apply (Options.ofValue_shifted hs hf config).bind
  intro x y hxy
  apply Matched.bind_map
  intro metadata
  rw [hxy.heap.renamed.truth_eq]
  apply Matched.bind_same
  intro hinted
  apply (Hints.ofValueOrNone_shifted hxy.heap hxy.sealFree hinted metadata).bind
  intro x' y' hxy'
  apply Matched.bind_map
  intro author
  apply Matched.bind_map
  intro created
  apply Matched.bind_map
  intro modified
  refine .ok ⟨?_, hxy'.heap, hxy'.sealFree⟩
  have hbody :
      (if y'.2.isDict (body.map (Ref.later a d)) then body.map (Ref.later a d) else .null) =
        (if x'.2.isDict body then body else .null).map (Ref.later a d) := by
    rw [hxy'.heap.renamed.isDict_eq]
    split <;> rfl
  simp only [map, hbody, hxy.value, hxy'.value]

end Prompt

end Promptbook

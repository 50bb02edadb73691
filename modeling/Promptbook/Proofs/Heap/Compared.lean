import Promptbook.Heap.Shape
import Promptbook.Proofs.Heap.Renamed
import Promptbook.Prompt.Basic

namespace Promptbook

variable {m : Ref → Ref}

theorem Value.sameLeaf_map (hm : m.Injective) (v w : Value) :
    (v.map m).sameLeaf (w.map m) = v.sameLeaf w := by
  cases v with
  | ref r =>
    cases w with
    | ref q =>
      have hiff : (ref (m r) == ref (m q)) = (ref r == ref q) := by
        rw [Bool.eq_iff_iff, beq_iff_eq, beq_iff_eq]
        exact (Value.map_injective hm).eq_iff (a := ref r) (b := ref q)
      exact hiff
    | _ => rfl
  | _ => cases w <;> rfl

namespace Heap

section Lists

variable {α β : Type} (g : α → β) (xs ys : List α)

theorem allSame_map (f : β → β → Except Fault Bool) :
    allSame f (xs.map g) (ys.map g) = allSame (fun x y => f (g x) (g y)) xs ys := by
  induction xs generalizing ys with
  | nil => cases ys <;> rfl
  | cons x xs ih =>
    cases ys with
    | nil => rfl
    | cons y ys => simp only [List.map_cons, allSame, ih]

theorem allOk_map (f : β → Except Fault Bool) :
    allOk f (xs.map g) = allOk (fun x => f (g x)) xs := by
  induction xs with
  | nil => rfl
  | cons x xs ih => simp only [List.map_cons, allOk, ih]

theorem findOk_map (f : β → Except Fault Bool) :
    findOk f (xs.map g) = (findOk (fun x => f (g x)) xs).map (Option.map g) := by
  induction xs with
  | nil => rfl
  | cons x xs ih =>
    rw [List.map_cons, findOk, findOk, ih]
    cases f (g x) with
    | error e => rfl
    | ok b => cases b <;> rfl

theorem maxOk_map (f : β → Except Fault Nat) (n : Nat) :
    maxOk f n (xs.map g) = maxOk (fun x => f (g x)) n xs := by
  induction xs generalizing n with
  | nil => rfl
  | cons x xs ih => simp only [List.map_cons, maxOk, ih]

end Lists

def SealFree (h : Heap) : Prop :=
  ∀ r ks message, h.get? r ≠ some (.sealed ks message)

variable {h k : Heap} {v w : Value} {ks : List Value} {message : String}

theorem SealFree.mapping? (hf : h.SealFree) : h.mapping? v ≠ some (.sealed ks message) := by
  intro hv
  rw [Heap.mapping?] at hv
  split at hv
  · cases hv
  · next ks' message' hn =>
    obtain ⟨r, -, hr⟩ := exists_of_node? hn
    exact hf r ks' message' hr
  · cases hv

namespace Renamed

variable (hm : Renamed m h k)
include hm

theorem map_eq_iff : v.map m = w.map m ↔ v = w :=
  (Value.map_injective hm.injective).eq_iff

theorem equalWithin_eq (n : Nat) (v w : Value) :
    k.equalWithin n (v.map m) (w.map m) = h.equalWithin n v w := by
  induction n generalizing v w with
  | zero => rfl
  | succ n ih =>
    rw [equalWithin, equalWithin, hm.node?_eq, hm.node?_eq]
    cases h.node? v with
    | none =>
      cases h.node? w with
      | none => exact congrArg Except.ok (Value.sameLeaf_map hm.injective v w)
      | some node => rfl
    | some node =>
      cases h.node? w with
      | none => cases node <;> rfl
      | some node' =>
        cases node <;> cases node' <;>
          simp only [Option.map_some, Node.map, List.length_map, allSame_map, allOk_map,
            findOk_map, map_bind, Option.isSome_map, hm.map_eq_iff, ih]
        case dict.dict es fs =>
          congr 2
          funext e
          congr 1
          funext found
          cases found <;> simp only [Option.map_none, Option.map_some, hm.map_eq_iff, ih]

theorem equal_eq (v w : Value) : k.equal (v.map m) (w.map m) = h.equal v w :=
  hm.equalWithin_eq walkLimit v w

theorem equalElement_eq (v w : Value) :
    k.equalElement (v.map m) (w.map m) = h.equalElement v w := by
  simp only [equalElement, hm.map_eq_iff, hm.equal_eq]

theorem listHas_eq (xs : List Value) (v : Value) :
    k.listHas (xs.map (Value.map m)) (v.map m) = h.listHas xs v := by
  simp only [listHas, findOk_map, map_bind, Option.isSome_map, hm.equalElement_eq]

theorem sameKey_eq (v w : Value) : k.sameKey (v.map m) (w.map m) = h.sameKey v w := by
  rw [sameKey, sameKey, hm.equal_eq]

theorem unhashableWithin_eq (n : Nat) (v : Value) :
    k.unhashableWithin n (v.map m) = h.unhashableWithin n v := by
  induction n generalizing v with
  | zero => rfl
  | succ n ih =>
    rw [unhashableWithin, unhashableWithin, hm.node?_eq, hm.typeName_eq]
    cases h.node? v with
    | none => rfl
    | some node =>
      cases node with
      | tuple xs => simp only [Option.map_some, Node.map, List.foldlM_map, ih]
      | _ => rfl

theorem checkKey_eq (v : Value) : k.checkKey (v.map m) = h.checkKey v := by
  rw [checkKey, checkKey, hm.unhashableWithin_eq]

theorem depthWithin_eq (n current : Nat) (ancestors : List Ref) (v : Value) :
    k.depthWithin n current (ancestors.map m) (v.map m) = h.depthWithin n current ancestors v := by
  induction n generalizing current ancestors v with
  | zero => rfl
  | succ n ih =>
    rw [depthWithin, depthWithin, Value.asRef?_map, hm.listed?_eq]
    cases v.asRef? with
    | none => rfl
    | some r =>
      have hx := ih (current + 1) (r :: ancestors)
      rw [List.map_cons] at hx
      cases h.listed? v with
      | none => rfl
      | some children =>
        simp only [Option.map_some, hm.mem_iff, map_bind, maxOk_map, hx]

theorem depth_eq (v : Value) : k.depth (v.map m) = h.depth v := by
  rw [depth_eq_within, depth_eq_within]
  exact hm.depthWithin_eq walkLimit 0 [] v

/-- The keys of a sealed mapping keep their names, so it has to be left out here. -/
theorem keys_eq (hf : h.SealFree) (v : Value) :
    (k.mapping? (v.map m)).map Mapping.keys =
      ((h.mapping? v).map Mapping.keys).map (List.map (Value.map m)) := by
  rw [hm.mapping?_eq]
  cases hv : h.mapping? v with
  | none => rfl
  | some d =>
    cases d with
    | entries es =>
      simp only [Option.map_some, Mapping.map, Mapping.keys, List.map_map, Function.comp_def]
    | «sealed» ks message => exact (hf.mapping? hv).elim

theorem iterate_eq (hf : h.SealFree) (v : Value) :
    k.iterate (v.map m) = (h.iterate v).map (List.map (Value.map m)) := by
  have hfixed {α : Type} (f : α → Value) (hf : ∀ x, (f x).map m = f x) (xs : List α) :
      xs.map f = (xs.map f).map (Value.map m) := by
    rw [List.map_map]
    exact List.map_congr_left fun x _ => (hf x).symm
  cases v with
  | ref r =>
    have htype := hm.typeName_eq (.ref r)
    rw [Value.map_ref] at htype
    simp only [iterate, Value.map_ref, node?_ref, hm.get?_eq]
    cases hr : h.get? r with
    | none =>
      simp only [Option.map_none, Value.asText?_ref, htype]
      rfl
    | some node =>
      cases node with
      | dict es =>
        simp only [Option.map_some, Node.map, Except.map, List.map_map, Function.comp_def]
      | «sealed» ks message => exact (hf r ks message hr).elim
      | _ => rfl
  | bytes data => exact congrArg Except.ok (hfixed _ (fun _ => rfl) _)
  | text s => exact congrArg Except.ok (hfixed _ (fun _ => rfl) _)
  | kind c => exact congrArg Except.ok (hfixed _ (fun _ => rfl) _)
  | category c => exact congrArg Except.ok (hfixed _ (fun _ => rfl) _)
  | _ => rfl

end Renamed

end Heap

namespace Entries

variable {h k : Heap}

theorem put_map (hm : Heap.Renamed m h k) (key x : Value) (es : Entries Value) :
    put k (key.map m) (x.map m) (es.map fun e => (e.1.map m, e.2.map m)) =
      (put h key x es).map fun e => (e.1.map m, e.2.map m) := by
  induction es with
  | nil => rfl
  | cons e es ih =>
    simp only [List.map_cons, put, hm.sameKey_eq, ih]
    split <;> rfl

theorem putText_map (name : String) (x : Value) (es : Entries Value) :
    putText name (x.map m) (es.map fun e => (e.1.map m, e.2.map m)) =
      (putText name x es).map fun e => (e.1.map m, e.2.map m) := by
  induction es with
  | nil => rfl
  | cons e es ih =>
    simp only [List.map_cons, putText, Value.asText?_map, ih]
    split <;> rfl

end Entries

end Promptbook

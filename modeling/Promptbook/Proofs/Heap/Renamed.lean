import Mathlib.Data.List.Basic
import Promptbook.Proofs.Heap.Frame

namespace Promptbook

variable {m : Ref → Ref}

theorem lookupText_map (name : String) (es : List (Value × Value)) :
    lookupText name (es.map fun e => (e.1.map m, e.2.map m)) =
      (lookupText name es).map (Value.map m) := by
  simp only [lookupText, List.find?_map, Function.comp_def, Value.asText?_map, Option.map_map]

theorem Value.map_injective (hm : m.Injective) : (Value.map m).Injective := by
  intro v w he
  cases v <;> cases w <;> first | exact he | cases he | exact congrArg ref (hm (ref.inj he))

/-- A mapping with its references led elsewhere. The keys of a sealed mapping stay. -/
def Mapping.map (m : Ref → Ref) : Mapping → Mapping
  | .entries es => .entries (es.map fun e => (e.1.map m, e.2.map m))
  | .sealed ks message => .sealed ks message

namespace Mapping

variable (d : Mapping) (name : String)

theorem has_map : (d.map m).has name = d.has name := by
  cases d with
  | entries es => simp only [map, has, lookupText_map, Option.isSome_map]
  | «sealed» ks message => rfl

theorem get_map : (d.map m).get name = (d.get name).map (Option.map (Value.map m)) := by
  cases d with
  | entries es =>
    rw [map, get, lookupText_map]
    rfl
  | «sealed» ks message => rfl

theorem items_map : (d.map m).items = d.items.map (List.map fun e => (e.1.map m, e.2.map m)) := by
  cases d with
  | entries es => rfl
  | «sealed» ks message => cases ks <;> rfl

theorem field_map : (d.map m).field name = (d.field name).map (Value.map m) := by
  rw [field, field, get_map]
  cases d.get name with
  | error e => rfl
  | ok o => cases o <;> rfl

end Mapping

namespace Heap

section Lists

variable {α β γ : Type} (g : α → β) (xs : List α)

theorem anyOk_map (f : β → Except Fault Bool) :
    anyOk f (xs.map g) = anyOk (fun x => f (g x)) xs := by
  induction xs with
  | nil => rfl
  | cons x xs ih => simp only [List.map_cons, anyOk, ih]

theorem eachOk_map (f : β → Except Fault γ) :
    eachOk f (xs.map g) = eachOk (fun x => f (g x)) xs := by
  induction xs with
  | nil => rfl
  | cons x xs ih => simp only [List.map_cons, eachOk, ih]

end Lists

/-- A heap holds the containers of another under other names, and none under other names of places
where there is none. -/
structure Renamed (m : Ref → Ref) (h k : Heap) : Prop where
  injective : m.Injective
  get?_eq : ∀ r, k.get? (m r) = (h.get? r).map (Node.map m)

variable {h k : Heap} {values v w : Value} {xs : List Value} {r : Ref} {n : Nat}

theorem listed?_map (hn : k.node? w = (h.node? v).map (Node.map m)) :
    k.listed? w = (h.listed? v).map (Except.map (List.map (Value.map m))) := by
  rw [listed?, listed?, hn]
  cases h.node? v with
  | none => rfl
  | some node =>
    cases node with
    | dict es => simp only [Option.map_some, Node.map, Except.map, List.map_map, Function.comp_def]
    | «sealed» ks message => cases ks <;> rfl
    | _ => rfl

namespace Renamed

variable (hm : Renamed m h k)
include hm

theorem mem_iff {rs : List Ref} : m r ∈ rs.map m ↔ r ∈ rs :=
  List.mem_map_of_injective hm.injective

theorem node?_eq (v : Value) : k.node? (v.map m) = (h.node? v).map (Node.map m) := by
  cases v <;> first | rfl | exact hm.get?_eq _

theorem follow_eq (ρ : List Step) (v : Value) :
    k.follow ρ (v.map m) = (h.follow ρ v).map (Value.map m) := by
  induction ρ generalizing v with
  | nil => rfl
  | cons st ρ ih =>
    rw [follow, follow, hm.node?_eq]
    cases h.node? v with
    | none => rfl
    | some node =>
      rw [Option.map_some, Option.bind_some, Option.bind_some, Node.step?_map]
      cases node.step? st with
      | none => rfl
      | some u => exact ih u

theorem reached (hr : k.Reaches (v.map m) r) : ∃ q, r = m q ∧ h.Reaches v q := by
  obtain ⟨ρ, hρ⟩ := hr
  rw [hm.follow_eq, Option.map_eq_some_iff] at hρ
  obtain ⟨u, hu, hur⟩ := hρ
  cases u with
  | ref q =>
    cases hur
    exact ⟨q, rfl, ρ, hu⟩
  | _ => cases hur

theorem mapping?_eq (v : Value) : k.mapping? (v.map m) = (h.mapping? v).map (Mapping.map m) := by
  rw [mapping?, mapping?, hm.node?_eq]
  cases h.node? v with
  | none => rfl
  | some node => cases node <;> rfl

theorem list?_eq (v : Value) : k.list? (v.map m) = (h.list? v).map (List.map (Value.map m)) := by
  rw [list?, list?, hm.node?_eq]
  cases h.node? v with
  | none => rfl
  | some node => cases node <;> rfl

theorem dict?_eq (v : Value) :
    k.dict? (v.map m) = (h.dict? v).map (List.map fun e => (e.1.map m, e.2.map m)) := by
  rw [dict?, dict?, hm.node?_eq]
  cases h.node? v with
  | none => rfl
  | some node => cases node <;> rfl

theorem isMapping_eq (v : Value) : k.isMapping (v.map m) = h.isMapping v := by
  rw [isMapping, isMapping, hm.mapping?_eq, Option.isSome_map]

theorem isList_eq (v : Value) : k.isList (v.map m) = h.isList v := by
  rw [isList, isList, hm.list?_eq, Option.isSome_map]

theorem isDict_eq (v : Value) : k.isDict (v.map m) = h.isDict v := by
  rw [isDict, isDict, hm.dict?_eq, Option.isSome_map]

theorem truthy_eq (v : Value) : k.truthy (v.map m) = h.truthy v := by
  cases v with
  | ref r =>
    simp only [Value.map_ref, truthy, hm.get?_eq]
    cases h.get? r with
    | none => rfl
    | some node => cases node <;> simp only [Option.map_some, Node.map, List.isEmpty_map]
  | _ => rfl

theorem truth_eq (v : Value) : k.truth (v.map m) = h.truth v := by
  cases v with
  | ref r => exact congrArg Except.ok (hm.truthy_eq (.ref r))
  | _ => rfl

theorem typeName_eq (v : Value) : k.typeName (v.map m) = h.typeName v := by
  cases v with
  | ref r =>
    simp only [Value.map_ref, typeName, hm.get?_eq]
    cases h.get? r with
    | none => rfl
    | some node => cases node <;> rfl
  | _ => rfl

theorem shortTypeName_eq (v : Value) : k.shortTypeName (v.map m) = h.shortTypeName v := by
  cases v <;> first | rfl | exact hm.typeName_eq (.ref _)

theorem asMapping_eq (v : Value) : k.asMapping (v.map m) = (h.asMapping v).map (Mapping.map m) := by
  rw [asMapping, asMapping, hm.mapping?_eq, hm.typeName_eq]
  cases h.mapping? v <;> rfl

theorem inside?_eq (v : Value) :
    k.inside? (v.map m) = (h.inside? v).map (Except.map (List.map (Value.map m))) := by
  rw [inside?, inside?, hm.node?_eq]
  cases h.node? v with
  | none => rfl
  | some node =>
    cases node with
    | dict es => simp only [Option.map_some, Node.map, Except.map, List.map_map, Function.comp_def]
    | «sealed» ks message => cases ks <;> rfl
    | _ => rfl

theorem listed?_eq (v : Value) :
    k.listed? (v.map m) = (h.listed? v).map (Except.map (List.map (Value.map m))) :=
  listed?_map (hm.node?_eq v)

theorem memberName_eq (v : Value) : k.memberName (v.map m) = h.memberName v := by
  cases v with
  | ref r =>
    have hshort := hm.shortTypeName_eq (.ref r)
    rw [Value.map_ref] at hshort
    simp only [Value.map_ref, memberName, Value.asText?_ref, hshort]
  | _ => rfl

theorem quoteWithin_eq (n : Nat) (active : List Ref) (v : Value) :
    k.quoteWithin n (active.map m) (v.map m) = h.quoteWithin n active v := by
  induction n generalizing active v with
  | zero => rfl
  | succ n ih =>
    cases v with
    | ref r =>
      have hx := ih (r :: active)
      rw [List.map_cons] at hx
      simp only [Value.map_ref, quoteWithin, hm.get?_eq, hm.mem_iff]
      cases h.get? r with
      | none => rfl
      | some node =>
        simp only [Option.map_some]
        by_cases ha : r ∈ active
        · simp only [ha, ↓reduceIte]
          cases node <;> rfl
        · simp only [ha, ↓reduceIte]
          cases node with
          | list xs => simp only [Node.map, eachOk_map, hx]
          | tuple xs =>
            rcases xs with _ | ⟨x, _ | ⟨y, xs⟩⟩
            · rfl
            · simp only [Node.map, List.map_cons, List.map_nil, hx]
            · simp only [Node.map, List.map_cons, eachOk, eachOk_map, hx]
          | set xs =>
            cases xs with
            | nil => rfl
            | cons x xs => simp only [Node.map, List.map_cons, eachOk, eachOk_map, hx]
          | dict es => simp only [Node.map, eachOk_map, hx]
          | «sealed» ks message => rfl
    | _ => rfl

theorem quote_eq (v : Value) : k.quote (v.map m) = h.quote v :=
  hm.quoteWithin_eq walkLimit [] v

theorem text_eq (v : Value) : k.text (v.map m) = h.text v := by
  cases v <;> first | rfl | exact hm.quote_eq (.ref _)

theorem hasCycleWithin_eq (n : Nat) (ancestors : List Ref) (v : Value) :
    k.hasCycleWithin n (ancestors.map m) (v.map m) = h.hasCycleWithin n ancestors v := by
  induction n generalizing ancestors v with
  | zero => rfl
  | succ n ih =>
    cases v with
    | ref r =>
      have hx := ih (r :: ancestors)
      rw [List.map_cons] at hx
      have hi := hm.inside?_eq (.ref r)
      rw [Value.map_ref] at hi
      simp only [Value.map_ref, hasCycleWithin, Value.asRef?, hi]
      cases h.inside? (.ref r) with
      | none => rfl
      | some children =>
        simp only [Option.map_some, hm.mem_iff]
        cases children with
        | error e => rfl
        | ok xs => simp only [Except.map, ok_bind, anyOk_map, hx]
    | _ => rfl

theorem hasCycle_eq (hd : k.depths = h.depths) (v : Value) :
    k.hasCycle (v.map m) = h.hasCycle v := by
  rw [hasCycle_eq_within, hasCycle_eq_within, hd]
  exact hm.hasCycleWithin_eq _ [] v

theorem standInNull_eq (v : Value) : k.standInNull (v.map m) = h.standInNull v := by
  cases v with
  | ref r =>
    have ht := hm.text_eq (.ref r)
    rw [Value.map_ref] at ht
    simp only [Value.map_ref, standInNull, ht]
  | _ => rfl

omit hm in
theorem leafJson?_map (m : Ref → Ref) (v : Value) : leafJson? (v.map m) = leafJson? v := by
  cases v <;> rfl

theorem toJsonWithin_eq (n : Nat) (ancestors : List Ref) (v : Value) :
    k.toJsonWithin k.standInNull n (ancestors.map m) (v.map m) =
      h.toJsonWithin h.standInNull n ancestors v := by
  induction n generalizing ancestors v with
  | zero => rfl
  | succ n ih =>
    rw [toJsonWithin, toJsonWithin, leafJson?_map, hm.node?_eq, hm.standInNull_eq,
      Value.asRef?_map]
    cases leafJson? v with
    | some result => rfl
    | none =>
      cases hr : v.asRef? with
      | none => rfl
      | some r =>
        have hx := ih (r :: ancestors)
        rw [List.map_cons] at hx
        cases h.node? v with
        | none => rfl
        | some node =>
          cases node with
          | list xs => simp only [Option.map_some, Node.map, hm.mem_iff, eachOk_map, hx]
          | tuple xs => simp only [Option.map_some, Node.map, hm.mem_iff, eachOk_map, hx]
          | dict es =>
            simp only [Option.map_some, Node.map, hm.mem_iff, eachOk_map, hm.memberName_eq, hx]
          | _ => rfl

theorem toJson_eq (hd : k.depths = h.depths) (v : Value) :
    k.toJson k.standInNull (v.map m) = h.toJson h.standInNull v := by
  rw [toJson, toJson, hd]
  exact hm.toJsonWithin_eq _ [] v

theorem render_eq (hd : k.depths = h.depths) (v : Value) : k.render (v.map m) = h.render v := by
  cases v with
  | ref r =>
    have hi := hm.inside?_eq (.ref r)
    have hcycle := hm.hasCycle_eq hd (.ref r)
    have hjson := hm.toJson_eq hd (.ref r)
    have htext := hm.text_eq (.ref r)
    rw [Value.map_ref] at hi hcycle hjson htext
    simp only [Value.map_ref, render, Value.asText?_ref, hi, hcycle, hjson, htext]
    cases h.inside? (.ref r) with
    | none => simp only [Option.map_none]
    | some children => simp only [Option.map_some]
  | _ => rfl

theorem walk_eq (names : List String) (v : Value) :
    k.walk names (v.map m) = (h.walk names v).map (Option.map (Value.map m)) := by
  induction names generalizing v with
  | nil => rfl
  | cons name names ih =>
    rw [walk, walk, hm.mapping?_eq]
    cases h.mapping? v with
    | none => rfl
    | some d =>
      simp only [Option.map_some, Mapping.has_map, Mapping.get_map]
      split
      · cases d.get name with
        | error e => rfl
        | ok o =>
          cases o with
          | none => rfl
          | some w => exact ih w
      · rfl

theorem lookup_eq (path : String) (v : Value) :
    k.lookup path (v.map m) = (h.lookup path v).map (Option.map (Value.map m)) :=
  hm.walk_eq _ v

theorem hasPath_eq (path : String) (v : Value) : k.hasPath path (v.map m) = h.hasPath path v := by
  rw [hasPath, hasPath, hm.lookup_eq]
  cases h.lookup path v with
  | error e => rfl
  | ok o => cases o <;> rfl

theorem written_eq (hd : k.depths = h.depths) (values : Value) (path : String) :
    k.written (values.map m) path = h.written values path := by
  simp only [written, hm.lookup_eq]
  rcases h.lookup path values with e | _ | w
  · simp only [Except.map, bind, Except.bind]
  · simp only [Except.map, ok_bind, Option.map_none]
  · simp only [Except.map, ok_bind, Option.map_some, hm.render_eq hd]

theorem substitute_eq (hd : k.depths = h.depths) (values : Value) (s : String) :
    k.substitute (values.map m) s = h.substitute values s :=
  substitute_eq_of_written fun path _ => hm.written_eq hd values path

end Renamed

end Heap

end Promptbook

import Promptbook.Heap.Basic

namespace Promptbook.Heap

def anyOk {α : Type} (test : α → Except Fault Bool) : List α → Except Fault Bool
  | [] => .ok false
  | x :: xs => do
    if ← test x then return true else anyOk test xs

/-- The values directly inside a container: the items of a list or tuple, the values of a
mapping. Nothing else counts as a container here. -/
def inside? (h : Heap) (v : Value) : Option (Except Fault (List Value)) :=
  match h.node? v with
  | some (.list xs) | some (.tuple xs) => some (.ok xs)
  | some (.dict es) => some (.ok (es.map (·.2)))
  | some (.sealed ks m) => some (Mapping.values (.sealed ks m))
  | _ => none

/-- Says whether a container contains itself. `ancestors` are the containers on the way from the
start; `n` bounds the depth. -/
def hasCycleWithin (h : Heap) : Nat → List Ref → Value → Except Fault Bool
  | 0, _, _ => .error .tooDeep
  | n + 1, ancestors, v =>
    match v.asRef?, h.inside? v with
    | some r, some children =>
      if r ∈ ancestors then .ok true
      else do anyOk (h.hasCycleWithin n (r :: ancestors)) (← children)
    | _, _ => .ok false

/-- Searches values one after the other until something is found or a search fails. The containers
noted are handed on from each search to the next. -/
def anyNoted (search : Value → List Ref → Except Fault Bool × List Ref) :
    List Value → List Ref → Except Fault Bool × List Ref
  | [], noted => (.ok false, noted)
  | x :: xs, noted =>
    match search x noted with
    | (.ok false, noted) => anyNoted search xs noted
    | (stop, noted) => (stop, noted)

/-- The same search with one set of containers that is kept up to date: a container is noted before
its contents are searched, and taken out of the set however that search ends. -/
def searchWithin (h : Heap) : Nat → Value → List Ref → Except Fault Bool × List Ref
  | 0, _, noted => (.error .tooDeep, noted)
  | n + 1, v, noted =>
    match v.asRef?, h.inside? v with
    | some r, some children =>
      if r ∈ noted then (.ok true, noted)
      else
        let (found, noted) :=
          match children with
          | .ok xs => anyNoted (h.searchWithin n) xs (r :: noted)
          | .error cause => (.error cause, r :: noted)
        (found, noted.erase r)
    | _, _ => (.ok false, noted)

theorem anyNoted_eq {search : Value → List Ref → Except Fault Bool × List Ref}
    {test : Value → Except Fault Bool} {noted : List Ref} (xs : List Value)
    (hs : ∀ x, search x noted = (test x, noted)) :
    anyNoted search xs noted = (anyOk test xs, noted) := by
  induction xs with
  | nil => rfl
  | cons x xs ih =>
    rw [anyNoted, anyOk, hs x]
    cases test x with
    | error cause => rfl
    | ok b =>
      cases b with
      | true => rfl
      | false => exact ih

/-- The set is left as it was, and what is found is found without keeping one. -/
theorem searchWithin_eq (h : Heap) (n : Nat) (v : Value) (noted : List Ref) :
    h.searchWithin n v noted = (h.hasCycleWithin n noted v, noted) := by
  induction n generalizing v noted with
  | zero => rfl
  | succ n ih =>
    rw [searchWithin, hasCycleWithin]
    cases v.asRef? with
    | none => rfl
    | some r =>
      cases h.inside? v with
      | none => rfl
      | some children =>
        dsimp only
        split
        · rfl
        · cases children with
          | error cause => exact congrArg (Prod.mk _) (List.erase_cons_head ..)
          | ok xs =>
            simp only [anyNoted_eq xs fun x => ih x (r :: noted), List.erase_cons_head]
            rfl

def hasCycle (h : Heap) (v : Value) : Except Fault Bool :=
  (h.searchWithin h.depths.search v []).1

theorem hasCycle_eq_within (h : Heap) (v : Value) :
    h.hasCycle v = h.hasCycleWithin h.depths.search [] v :=
  congrArg Prod.fst (h.searchWithin_eq h.depths.search v [])

def listed? (h : Heap) (v : Value) : Option (Except Fault (List Value)) :=
  match h.node? v with
  | some (.list xs) => some (.ok xs)
  | some (.dict es) => some (.ok (es.map (·.2)))
  | some (.sealed ks m) => some (Mapping.values (.sealed ks m))
  | _ => none

def maxOk {α : Type} (measure : α → Except Fault Nat) : Nat → List α → Except Fault Nat
  | deepest, [] => .ok deepest
  | deepest, x :: xs => do
    let d ← measure x
    maxOk measure (max deepest d) xs

/-- Depth of nested lists and mappings below a value at depth `current`. A container inside itself
is not entered again; `n` bounds the depth. -/
def depthWithin (h : Heap) : Nat → Nat → List Ref → Value → Except Fault Nat
  | 0, _, _, _ => .error .tooDeep
  | n + 1, current, ancestors, v =>
    match v.asRef?, h.listed? v with
    | some r, some children =>
      if r ∈ ancestors then .ok current
      else do maxOk (h.depthWithin n (current + 1) (r :: ancestors)) current (← children)
    | _, _ => .ok current

/-- Measures values one after the other and keeps the greatest measure. The containers noted are
handed on from each measurement to the next. -/
def maxNoted (measure : Value → List Ref → Except Fault (Nat × List Ref)) :
    Nat → List Value → List Ref → Except Fault (Nat × List Ref)
  | deepest, [], noted => .ok (deepest, noted)
  | deepest, x :: xs, noted => do
    let (d, noted) ← measure x noted
    maxNoted measure (max deepest d) xs noted

/-- The same depth with one set of containers that is kept up to date: a container is noted before
its contents are measured, and taken out of the set after them. -/
def measureWithin (h : Heap) : Nat → Nat → Value → List Ref → Except Fault (Nat × List Ref)
  | 0, _, _, _ => .error .tooDeep
  | n + 1, current, v, noted =>
    match v.asRef?, h.listed? v with
    | some r, some children =>
      if r ∈ noted then .ok (current, noted)
      else do
        let xs ← children
        let (deepest, noted) ← maxNoted (h.measureWithin n (current + 1)) current xs (r :: noted)
        return (deepest, noted.erase r)
    | _, _ => .ok (current, noted)

theorem maxNoted_eq {measure : Value → List Ref → Except Fault (Nat × List Ref)}
    {depth : Value → Except Fault Nat} {noted : List Ref} (xs : List Value) (deepest : Nat)
    (hm : ∀ x, measure x noted = (depth x).map (·, noted)) :
    maxNoted measure deepest xs noted = (maxOk depth deepest xs).map (·, noted) := by
  induction xs generalizing deepest with
  | nil => rfl
  | cons x xs ih =>
    rw [maxNoted, maxOk, hm x]
    cases depth x with
    | error cause => rfl
    | ok d => exact ih (max deepest d)

/-- The set is left as it was, and the depth is found without keeping one. -/
theorem measureWithin_eq (h : Heap) (n current : Nat) (v : Value) (noted : List Ref) :
    h.measureWithin n current v noted = (h.depthWithin n current noted v).map (·, noted) := by
  induction n generalizing current v noted with
  | zero => rfl
  | succ n ih =>
    rw [measureWithin, depthWithin]
    cases v.asRef? with
    | none => rfl
    | some r =>
      cases h.listed? v with
      | none => rfl
      | some children =>
        dsimp only
        split
        · rfl
        · cases children with
          | error cause => rfl
          | ok xs =>
            have hxs := maxNoted_eq xs current fun x => ih (current + 1) x (r :: noted)
            simp only [bind, Except.bind, hxs]
            cases maxOk (h.depthWithin n (current + 1) (r :: noted)) current xs with
            | error cause => rfl
            | ok d => exact congrArg (fun rest => Except.ok (d, rest)) (List.erase_cons_head ..)

def depth (h : Heap) (v : Value) : Except Fault Nat :=
  (h.measureWithin walkLimit 0 v []).map (·.1)

theorem depth_eq_within (h : Heap) (v : Value) : h.depth v = h.depthWithin walkLimit 0 [] v := by
  rw [depth, measureWithin_eq]
  cases h.depthWithin walkLimit 0 [] v <;> rfl

end Promptbook.Heap

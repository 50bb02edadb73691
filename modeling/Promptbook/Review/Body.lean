import Promptbook.Body.Check
import Promptbook.Heap.Shape
import Promptbook.Placeholder
import Promptbook.Review.Basic
import Promptbook.Settings.Basic

namespace Promptbook.Review

def bodyFields : List String := ["task", "instructions", "context", "output_format", "variables"]

def formatFlags : List String :=
  ["include_line_numbers", "include_severity", "include_explanation", "include_fix_suggestion"]

/-- A field of a body that has to be a text with ink, and not too long. -/
def longText (limit : Nat) (name verb : String) (v : Value) : Verdict :=
  textRule v s!"Template {name} must be a string" fun s => .join [
    .errorIf (!Text.hasInk s) s!"Template {name} cannot be empty",
    .errorIf (limit < s.length) s!"Template {name} {verb} too long (max {limit} characters)"]

def contextVerdict (h : Heap) (limit : Nat) (context : Value) : Except Fault Verdict :=
  if context = .null then .ok .clean
  else if !h.isMapping context then .ok (.error "Template context must be an object")
  else do
    let depth ← h.depth context
    return .warnIf (!h.truthy context) "Template context is empty" ++
      .warnIf (limit < depth) s!"Template context has very deep nesting (>{limit} levels)"

def flagVerdict (m : Mapping) (names : List String) : Except Fault Verdict :=
  match names with
  | [] => .ok .clean
  | name :: names => do
    let v ← m.get name
    let rest ← flagVerdict m names
    return .errorIf (v.any fun v => !isBool v) s!"Output format {name} must be a boolean" ++ rest

def formatVerdict (h : Heap) (format : Value) : Except Fault Verdict :=
  match format, h.mapping? format with
  | .null, _ => .ok .clean
  | _, none => .ok (.error "Template output_format must be an object")
  | _, some m => do
    let layout ← m.field "structure"
    let given ← h.truth layout
    let flags ← flagVerdict m formatFlags
    return .errorIf (!given || !isText layout)
      "Output format must have a structure field that is a string" ++ flags

def variableVerdict (index : Nat) (v : Value) : Verdict :=
  match v.asText? with
  | none => .error s!"Variable at index {index} must be a string"
  | some s => .errorIf (!Text.hasInk s) s!"Variable at index {index} cannot be empty"

def variableVerdicts : Nat → List Value → List Verdict
  | _, [] => []
  | index, v :: vs => variableVerdict index v :: variableVerdicts (index + 1) vs

def hasRepeat : List String → Bool
  | [] => false
  | s :: rest => s ∈ rest || hasRepeat rest

def variablesVerdict (h : Heap) (limit : Nat) (declared : Value) : Verdict :=
  match declared, h.list? declared with
  | .null, _ => .clean
  | _, none => .error "Template variables must be an array"
  | _, some vs => .join [
      .warnIf (limit < vs.length)
        s!"Template has many variables ({vs.length}), consider simplifying",
      .join (variableVerdicts 0 vs),
      .warnIf (hasRepeat (vs.filterMap Value.asText?)) "Template has duplicate variables"]

def root (path : String) : String :=
  String.ofList (path.toList.takeWhile (· ≠ '.'))

def collect {α β : Type} (step : α → Except Fault (List β)) : List α → Except Fault (List β)
  | [] => .ok []
  | x :: xs => do
    let ys ← step x
    let zs ← collect step xs
    return ys ++ zs

/-- The first segments of the placeholders in a value. `ancestors` are the containers around it,
which are not entered again; `n` bounds the depth. -/
def rootsWithin (h : Heap) : Nat → List Ref → Value → Except Fault (List String)
  | 0, _, _ => .error .tooDeep
  | n + 1, ancestors, v =>
    match v.asText? with
    | some s => .ok ((placeholderPaths s).map root)
    | none =>
      match v.asRef?, h.listed? v with
      | some r, some children =>
        if r ∈ ancestors then .ok []
        else do collect (rootsWithin h n (r :: ancestors)) (← children)
      | _, _ => .ok []

/-- The first segments of the placeholders in the entries of a body other than its list of
variables. -/
def usedRoots (h : Heap) (m : Mapping) : Except Fault (List String) := do
  let es ← m.items
  let others := es.filter fun e => e.1.asText? ≠ some "variables"
  collect (rootsWithin h (Heap.walkLimit - 1) []) (others.map (·.2))

def declaredRoots (h : Heap) (m : Mapping) : Except Fault (List String) := do
  let declared ← m.field "variables"
  return (((h.list? declared).getD []).filterMap Value.asText?).map root

/-- The texts of one list that are not in another, in alphabetical order and each once. -/
def missingFrom (others names : List String) : List String :=
  ((names.filter (· ∉ others)).eraseDups).mergeSort fun a b => decide (a ≤ b)

/-- Compares the variables that are used with those that are declared. -/
def referenceVerdict (h : Heap) (m : Mapping) : Except Fault Verdict := do
  let declared ← declaredRoots h m
  let used ← usedRoots h m
  return ⟨[], (missingFrom declared used).map (fun name =>
      s!"Variable '{name}' is used but not declared in variables array") ++
    (missingFrom used declared).map (fun name =>
      s!"Variable '{name}' is declared but not used in template")⟩

def bodyFieldsVerdict (settings : ReviewSettings) (h : Heap) (m : Mapping) :
    Except Fault Verdict := do
  let limit := settings.fieldLimit
  let task ← m.field "task"
  let instructions ← m.field "instructions"
  let context ← contextVerdict h settings.depthLimit (← m.field "context")
  let format ← formatVerdict h (← m.field "output_format")
  let declared ← m.field "variables"
  let language ← m.field "language"
  let given ← h.truth language
  return .join [
    longText limit "task" "is" task,
    longText limit "instructions" "are" instructions,
    context,
    format,
    variablesVerdict h settings.variableLimit declared,
    .errorIf (given && !isText language) "Template language must be a string"]

def body (settings : ReviewSettings) (h : Heap) (v : Value) : Except Fault Verdict :=
  match h.mapping? v, h.truthy v with
  | some m, true => do
    let required ← require m bodyFields
    let fields ← bodyFieldsVerdict settings h m
    let references ← referenceVerdict h m
    return .join [required, fields, references]
  | _, _ => do
    let _ ← h.truth v
    return .error Body.absent

end Promptbook.Review

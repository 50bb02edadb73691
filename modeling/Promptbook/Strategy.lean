import Promptbook.Heap.Display
import Promptbook.Kind

namespace Promptbook

structure Strategy where
  simplify : Bool := false
  message : String
  fallback : Option String := none
  deriving DecidableEq, Repr, Inhabited

namespace Strategy

/-- A field of a context that is a mapping, unless it is null or an empty text. -/
def given? (h : Heap) (context : Value) (name : String) : Except Fault (Option Value) :=
  match h.mapping? context with
  | none => .ok none
  | some m => do
    let v ← m.field name
    return if v = .null || v = .text "" then none else some v

def shown (h : Heap) (context : Value) (name default : String) : Except Fault String := do
  match ← given? h context name with
  | some v => h.text v
  | none => return default

def listed (h : Heap) (context : Value) (name : String) : Except Fault (List String) := do
  match (← given? h context name).bind h.node? with
  | some (.list xs) | some (.tuple xs) | some (.set xs) => h.texts xs
  | _ => return []

def listPart (lead : String) (items : List String) : String :=
  if items.isEmpty then "" else lead ++ Heap.commaList items

def unknownText : String :=
  "Unknown error occurred in the prompt system. Please check system logs and configuration."

def parseText (h : Heap) (context : Value) : Except Fault String := do
  let id ← shown h context "prompt_id" "unknown"
  let error ← shown h context "original_error" "Unknown parsing error"
  return s!"Template parsing failed for '{id}': {error}. " ++
    "Please check the template syntax and structure."

def substitutionText (h : Heap) (context : Value) : Except Fault String := do
  let id ← shown h context "prompt_id" "unknown"
  let error ← shown h context "original_error" "Unknown substitution error"
  let missing ← listed h context "missing_variables"
  return s!"Variable substitution failed for '{id}': {error}" ++
    listPart ". Missing variables: " missing ++
    ". Please check template variable definitions and context data."

def validationText (h : Heap) (context : Value) : Except Fault String := do
  let id ← shown h context "prompt_id" "unknown"
  let errors ← listed h context "errors"
  let suggestions ← listed h context "suggestions"
  return s!"Prompt validation failed for '{id}'" ++ listPart ": " errors ++
    listPart ". Suggestions: " suggestions

def configurationText (h : Heap) (context : Value) : Except Fault String := do
  let component ← shown h context "component" "unknown component"
  let error ← shown h context "original_error" "Unknown configuration error"
  return s!"Configuration error in {component}: {error}. " ++
    "Please check system configuration and settings."

def requested (h : Heap) (context : Value) : Except Fault Value := do
  let byId : Except Fault Value := do
    return (← given? h context "prompt_id").getD (.text "unknown")
  match ← given? h context "requested_type" with
  | some v => if ← h.truth v then return v else byId
  | none => byId

def notFoundText (h : Heap) (context : Value) : Except Fault String := do
  let wanted ← requested h context
  let available ← listed h context "available_types"
  if available.isEmpty then
    return "No prompts are currently loaded. Please ensure prompt templates are properly " ++
      "configured and available in the templates directory."
  else
    return s!"Prompt '{← h.text wanted}' not found. Available prompt types: " ++
      s!"{Heap.commaList available}. " ++
      "Please ensure the required prompt template is properly configured."

def textOf (h : Heap) (context : Value) : Kind → Except Fault String
  | .templateParse => parseText h context
  | .variableSubstitution => substitutionText h context
  | .validation => validationText h context
  | .configuration => configurationText h context
  | .promptNotFound => notFoundText h context
  | .unknown => .ok unknownText

/-- Advice on a failure of a kind. A context that cannot be read gives the message for the unknown
kind. -/
def ofContext (h : Heap) (kind : Kind) (context : Value) : Strategy :=
  { message := match textOf h context kind with
      | .ok s => s
      | .error _ => unknownText }

end Strategy

end Promptbook

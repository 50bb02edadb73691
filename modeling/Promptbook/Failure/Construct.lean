import Promptbook.Failure
import Promptbook.Prompt.Basic

namespace Promptbook.Failure

/-- Parameters of an error: those that are needed, and the number of those that are not. -/
structure Parameters where
  needed : List String
  optional : Nat
  deriving Repr

def nameList (names : List String) : String :=
  match names.map fun n => s!"'{n}'" with
  | [a, b] => s!"{a} and {b}"
  | quoted => ", ".intercalate quoted

def checkCount (name : String) (p : Parameters) (count : Nat) : Except Fault Unit :=
  let missing := p.needed.drop count
  let least := p.needed.length + 1
  let most := least + p.optional
  if !missing.isEmpty then
    let noun := if missing.length = 1 then "argument" else "arguments"
    .error (.arguments (s!"{name}.__init__() missing {missing.length} required positional " ++
      s!"{noun}: {nameList missing}"))
  else if most < count + 1 then
    let range := if p.optional = 0 then s!"{most}" else s!"from {least} to {most}"
    .error (.arguments
      s!"{name}.__init__() takes {range} positional arguments but {count + 1} were given")
  else .ok ()

def itemsOf (h : Heap) (v : Option Value) : Except Fault (List Value) :=
  match v with
  | some v => do
    if ← h.truth v then h.iterate v else return []
  | none => .ok []

/-- The error with a given name, made from arguments. There is none if no error has that name. -/
def make? (h : Heap) (name : String) (arguments : List Value) : Option (Except Fault Failure) :=
  match name, arguments with
  | "PromptSystemError", vs => some (.ok (raised .general vs))
  | "VariableSubstitutionError", vs => some (.ok (raised .substitution vs))
  | "TemplateParseError", vs => some do
    checkCount name ⟨["source", "reason"], 0⟩ vs.length
    let source := vs.headD .null
    let reason := vs.tail.headD .null
    let shown := s!"'{← h.text source}': {← h.text reason}"
    return raised (.parse source reason) [.text s!"Failed to parse prompt definition {shown}"]
  | "ConfigurationError", vs => some do
    checkCount name ⟨["component", "reason"], 0⟩ vs.length
    let component := vs.headD .null
    let reason := vs.tail.headD .null
    let shown := s!"{← h.text component}: {← h.text reason}"
    return raised (.configuration component reason) [.text s!"Configuration error in {shown}"]
  | "TemplateProcessingError", vs => some do
    checkCount name ⟨["message"], 1⟩ vs.length
    let errors ← itemsOf h vs[1]?
    return raised (.processing errors) [vs.headD .null]
  | "PromptNotFoundError", vs => some do
    checkCount name ⟨["prompt_id"], 1⟩ vs.length
    let available ← itemsOf h vs[1]?
    notFound h (vs.headD .null) available
  | name, vs => (Foreigner.ofName? name).map fun e => .ok (raised (.foreign e) vs)

end Promptbook.Failure

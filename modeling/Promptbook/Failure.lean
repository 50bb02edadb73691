import Promptbook.Heap.Display
import Promptbook.Kind

namespace Promptbook

inductive Foreigner
  | badValue
  | badKey
  | badType
  | runtime
  | missingFile
  | badIndex
  | zeroDivision
  | custom
  | keyboardInterrupt
  | systemExit
  deriving DecidableEq, Repr

namespace Foreigner

def all : List Foreigner :=
  [badValue, badKey, badType, runtime, missingFile, badIndex, zeroDivision, custom,
    keyboardInterrupt, systemExit]

def className : Foreigner → String
  | badValue => "ValueError"
  | badKey => "KeyError"
  | badType => "TypeError"
  | runtime => "RuntimeError"
  | missingFile => "FileNotFoundError"
  | badIndex => "IndexError"
  | zeroDivision => "ZeroDivisionError"
  | custom => "CustomFailure"
  | keyboardInterrupt => "KeyboardInterrupt"
  | systemExit => "SystemExit"

def ofName? (s : String) : Option Foreigner :=
  all.find? fun e => e.className == s

def isInterrupt (e : Foreigner) : Bool :=
  e = keyboardInterrupt || e = systemExit

end Foreigner

inductive Cause
  | general
  | parse (source reason : Value)
  | processing (errors : List Value)
  | substitution
  | configuration (component reason : Value)
  | notFound (id : Value) (available : List Value)
  | foreign (e : Foreigner)
  deriving DecidableEq, Repr

namespace Cause

def className : Cause → String
  | general => "PromptSystemError"
  | parse .. => "TemplateParseError"
  | processing _ => "TemplateProcessingError"
  | substitution => "VariableSubstitutionError"
  | configuration .. => "ConfigurationError"
  | notFound .. => "PromptNotFoundError"
  | foreign e => e.className

def kind? : Cause → Option Kind
  | general => some .unknown
  | parse .. => some .templateParse
  | processing _ => some .validation
  | substitution => some .variableSubstitution
  | configuration .. => some .configuration
  | notFound .. => some .promptNotFound
  | foreign _ => none

end Cause

inductive Failure
  | fault (cause : Fault)
  | raised (cause : Cause) (arguments : List Value)
  deriving DecidableEq, Repr

namespace Failure

def className : Failure → String
  | fault cause => cause.className
  | raised cause _ => cause.className

def kind? : Failure → Option Kind
  | fault _ => none
  | raised cause _ => cause.kind?

def isInterrupt : Failure → Bool
  | raised (.foreign e) _ => e.isInterrupt
  | _ => false

/-- Text of arguments: none is empty, one shows itself, several are shown as a tuple. -/
def argumentsText (h : Heap) : List Value → Except Fault String
  | [] => .ok ""
  | [v] => h.text v
  | vs => do
    let ts ← Heap.eachOk h.quote vs
    return s!"({Heap.commaList ts})"

/-- Text of an error on a file: number and message, and the names of the files it is about. -/
def fileText (h : Heap) (number message : Value) (names : List Value) : Except Fault String := do
  let number ← h.text number
  let message ← h.text message
  let base := s!"[Errno {number}] {message}"
  match names with
  | [] => return base
  | [name] => return s!"{base}: {← h.quote name}"
  | name :: other :: _ => return s!"{base}: {← h.quote name} -> {← h.quote other}"

/-- The names of files among the arguments after number and message. The second argument after
them has no meaning, and null stands for no name. -/
def fileNames : List Value → List Value
  | [] | .null :: _ => []
  | name :: _ :: other :: _ => if other = .null then [name] else [name, other]
  | name :: _ => [name]

def text (h : Heap) : Failure → Except Fault String
  | fault cause => .ok cause.message
  | raised cause vs =>
    match cause, vs with
    | .foreign .badKey, [v] => h.quote v
    | .foreign .missingFile, a :: b :: rest =>
      if rest.length ≤ 3 then fileText h a b (fileNames rest) else argumentsText h vs
    | _, vs => argumentsText h vs

/-- Text of a failure, or the name of its class if the text is empty. -/
def textOrClass (h : Heap) (e : Failure) : Except Fault String := do
  let s ← e.text h
  return if s.isEmpty then e.className else s

def parse (source reason : String) : Failure :=
  raised (.parse (.text source) (.text reason))
    [.text s!"Failed to parse prompt definition '{source}': {reason}"]

def processing (errors : List String) : Failure :=
  raised (.processing (errors.map .text))
    [.text s!"Template processing failed: {Heap.commaList errors}"]

def joined (h : Heap) : Nat → List Value → Except Fault (List String)
  | _, [] => .ok []
  | i, v :: vs => do
    match v.asText? with
    | some s => return s :: (← joined h (i + 1) vs)
    | none => .error (.itemNotText i (h.typeName v))

def substitution (message : String) : Failure :=
  raised .substitution [.text message]

def notFound (h : Heap) (name : Value) (available : List Value) : Except Fault Failure := do
  let shown ← h.text name
  let names ← Heap.eachOk h.quote available
  return raised (.notFound name available)
    [.text s!"Prompt '{shown}' not found. Available prompts: [{Heap.commaList names}]"]

end Failure

end Promptbook

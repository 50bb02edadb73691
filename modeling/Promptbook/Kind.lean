import Promptbook.Text.Basic
import Promptbook.Text.Lowercase

namespace Promptbook

inductive Kind
  | templateParse
  | variableSubstitution
  | validation
  | configuration
  | promptNotFound
  | unknown
  deriving DecidableEq, Repr, Inhabited

namespace Kind

def all : List Kind :=
  [templateParse, variableSubstitution, validation, configuration, promptNotFound, unknown]

theorem mem_all (k : Kind) : k ∈ all := by
  cases k <;> decide

def name : Kind → String
  | templateParse => "template_parse_error"
  | variableSubstitution => "variable_substitution_error"
  | validation => "validation_error"
  | configuration => "configuration_error"
  | promptNotFound => "prompt_not_found"
  | unknown => "unknown"

theorem name_injective {k l : Kind} (h : k.name = l.name) : k = l := by
  revert h
  cases k <;> cases l <;> decide

def ofName? (s : String) : Option Kind :=
  all.find? fun k => k.name == s

@[simp] theorem ofName?_name (k : Kind) : ofName? k.name = some k := by
  cases k <;> decide

/-- A name as it is compared: without blanks around it, in lower case, with underscores. -/
def normalize (s : String) : String :=
  String.ofList (Text.replaceChar '-' ['_'] (Text.lower (Text.trim s)).toList)

/-- The kind a text names in any spelling; a text that names none means the unknown kind. -/
def ofText (s : String) : Kind :=
  (ofName? (normalize s)).getD unknown

def label (k : Kind) : String :=
  String.ofList (k.name.toList.map Char.toUpper)

end Kind

inductive Category
  | codeReview
  | debugAnalysis
  | refactoring
  | documentation
  | securityAnalysis
  | performanceAnalysis
  | testGeneration
  | codeExplanation
  | general
  deriving DecidableEq, Repr, Inhabited

namespace Category

def all : List Category :=
  [codeReview, debugAnalysis, refactoring, documentation, securityAnalysis, performanceAnalysis,
    testGeneration, codeExplanation, general]

theorem mem_all (c : Category) : c ∈ all := by
  cases c <;> decide

def name : Category → String
  | codeReview => "code_review"
  | debugAnalysis => "debug_analysis"
  | refactoring => "refactoring"
  | documentation => "documentation"
  | securityAnalysis => "security_analysis"
  | performanceAnalysis => "performance_analysis"
  | testGeneration => "test_generation"
  | codeExplanation => "code_explanation"
  | general => "general"

theorem name_injective {c d : Category} (h : c.name = d.name) : c = d := by
  revert h
  cases c <;> cases d <;> decide

def ofName? (s : String) : Option Category :=
  all.find? fun c => c.name == s

@[simp] theorem ofName?_name (c : Category) : ofName? c.name = some c := by
  cases c <;> decide

def label (c : Category) : String :=
  String.ofList (c.name.toList.map Char.toUpper)

end Category

end Promptbook

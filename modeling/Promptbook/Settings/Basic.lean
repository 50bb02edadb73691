namespace Promptbook

/-- How errors are reported: the tag and the presence of log lines, the length to which a written
context is cut, and the counts from which a kind of error is frequent or critical. -/
structure ReportSettings where
  tag : String := "[PromptSystem]"
  logs : Bool := true
  contextLimit : Nat := 500
  frequent : Nat := 5
  critical : Nat := 10
  deriving DecidableEq, Repr, Inhabited

/-- The limits of a review, and the schema versions that pass without a warning. -/
structure ReviewSettings where
  fieldLimit : Nat := 10000
  variableLimit : Nat := 50
  depthLimit : Nat := 5
  versions : List String := ["1.0", "1.1"]
  deriving DecidableEq, Repr, Inhabited

inductive LevelName
  | debug
  | info
  | warning
  | error
  deriving DecidableEq, Repr, Inhabited

namespace LevelName

/-- All levels that settings can name, from the least to the most severe. -/
def all : List LevelName := [debug, info, warning, error]

def name : LevelName → String
  | debug => "debug"
  | info => "info"
  | warning => "warning"
  | error => "error"

def ofName? (s : String) : Option LevelName :=
  all.find? fun l => l.name == s

end LevelName

structure LogSettings where
  level : LevelName := .info
  deriving DecidableEq, Repr, Inhabited

/-- All settings, and the directories in which definitions are looked for. -/
structure Config where
  report : ReportSettings := {}
  review : ReviewSettings := {}
  log : LogSettings := {}
  directories : List String := []
  deriving DecidableEq, Repr, Inhabited

end Promptbook

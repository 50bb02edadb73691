import Promptbook.Heap.Basic
import Promptbook.Settings.Basic
import Promptbook.Text.Lowercase

namespace Promptbook

def LevelName.number : LevelName → Int
  | debug => 10
  | info => 20
  | warning => 30
  | error => 40

namespace LogLevel

def lineFormat : String := "%(asctime)s - %(name)s - %(levelname)s - %(message)s"

def timeFormat : String := "%Y-%m-%d %H:%M:%S"

/-- The level that a value stands for: an integer stands for itself, and the name of a level, in
capitals or not, for its number. Other names stand for the middle level. -/
def resolve (h : Heap) (v : Value) : Except Fault Value :=
  match v.asInt?, v.asText?, v with
  | some _, _, v => .ok v
  | none, some s, _ =>
    .ok (.int ((LevelName.ofName? (Text.lower s)).getD .info).number)
  | none, none, .bytes _ => .ok (.int LevelName.info.number)
  | none, none, v => .error (.noAttribute (h.typeName v) "lower")

end LogLevel

/-- The state of a log: the level at its root, once it has been set up, and the library's level. -/
structure LogState where
  root : Option Value := none
  library : Value := .int 0
  deriving DecidableEq, Repr, Inhabited

namespace LogState

/-- Sets up a log. Only the first set-up touches the root; every one sets the library's level. -/
def setUp (level : Value) (s : LogState) : LogState :=
  { root := some (s.root.getD level), library := level }

def outputs (s : LogState) : Nat :=
  if s.root.isSome then 1 else 0

end LogState

end Promptbook

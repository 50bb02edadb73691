import Promptbook.Heap.Basic
import Promptbook.Text.Basic
import Promptbook.Verdict

namespace Promptbook.Body

/-- Says whether a value is a text with a character that is not blank. -/
def isFilledText (v : Value) : Bool :=
  v.asText?.any Text.hasInk

def absent : String := "Template is null or undefined"

/-- Checks the parts of a body that replacement relies on. A body without a list of variables is
only warned about. -/
def check (h : Heap) (body : Value) : Except Fault Verdict :=
  match h.mapping? body, h.truthy body with
  | some m, true => do
    let task ← m.field "task"
    let instructions ← m.field "instructions"
    let context ← m.field "context"
    let format ← m.field "output_format"
    let declared ← m.field "variables"
    return .join [
      .errorIf (!isFilledText task) "Template task cannot be empty",
      .errorIf (!isFilledText instructions) "Template must have non-empty instructions field",
      .errorIf (!h.isMapping context) "Template must have a context object",
      .errorIf (!h.isMapping format) "Template must have an output_format object",
      .warnIf (!h.isList declared)
        "Template should have a variables array listing expected variables"]
  | _, _ => do
    let _ ← h.truth body
    return .error absent

end Promptbook.Body

import Promptbook.Files.Document
import Promptbook.Review.Record
import Promptbook.Session

namespace Promptbook

namespace Definition

def read (t : FileTree) (p : FilePath) (h : Heap) : Except Failure (Value × Heap) :=
  let reject (reason : String) : Except Failure (Value × Heap) := .error (.parse p.text reason)
  match p.format? with
  | none => reject s!"unsupported file extension '{p.suffix}'"
  | some format =>
    match t.text p with
    | .error (.file cause path) =>
      reject s!"cannot read file: {(Fault.file cause path).message}"
    | .error cause => .error (.fault cause)
    | .ok s =>
      match format.read h s with
      | .error (.malformed message) => reject s!"invalid {format.name}: {message}"
      | .error (.fault cause) => .error (.fault cause)
      | .ok (v, h) => if h.isDict v then .ok (v, h) else reject "definition must be a mapping"

def paths (t : FileTree) (directory : FilePath) : List FilePath :=
  (t.files directory).filter fun p => p.format?.isSome

end Definition

namespace Action

def logWarnings (p : FilePath) : List String → Action Unit
  | [] => return ()
  | warning :: warnings => do
    log .debug s!"{p.name}: {warning}"
    logWarnings p warnings

/-- The prompt that a file defines. Its serial number is the number of containers there were before
it, which grows with every prompt. -/
def loadFile (t : FileTree) (settings : ReviewSettings) (p : FilePath) : Action Prompt := do
  let data ← change (Definition.read t p)
  let verdict ← read fun h => Review.record settings h data
  if !verdict.accepts then throw (.parse p.text ("; ".intercalate verdict.errors))
  logWarnings p verdict.warnings
  edit fun h => Prompt.ofValue h h.nodes.size data

end Action

end Promptbook

import Promptbook.Files.Tree
import Promptbook.Json.OfValue
import Promptbook.Json.Reader
import Promptbook.Yaml.Load

namespace Promptbook

inductive Format
  | json
  | yaml
  deriving DecidableEq, Repr, Inhabited

namespace Format

def name : Format → String
  | json => "JSON"
  | yaml => "YAML"

/-- The suffixes of documents, in the order in which they are looked for. -/
def suffixes : List String := [".json", ".yaml", ".yml"]

def ofSuffix? (s : String) : Option Format :=
  if s = ".json" then some json
  else if s = ".yaml" || s = ".yml" then some yaml
  else none

theorem ofSuffix?_isSome (s : String) : (ofSuffix? s).isSome = true ↔ s ∈ suffixes := by
  unfold ofSuffix? suffixes
  split
  · simp_all
  · split <;> simp_all

/-- Why a text is no document: it is not in its format, or what it says cannot be built. -/
inductive Flaw
  | malformed (message : String)
  | fault (cause : Fault)
  deriving DecidableEq, Repr

def read (h : Heap) (s : List Char) : Format → Except Flaw (Value × Heap)
  | json =>
    match Json.parse Heap.walkLimit s with
    | .ok j => .ok (Heap.ofJson h j)
    | .error (.flaw f) => .error (.malformed f.message)
    | .error (.fault cause) => .error (.fault cause)
  | yaml =>
    match Yaml.load h s with
    | .ok r => .ok r
    | .error .malformed => .error (.malformed Yaml.malformedText)
    | .error (.fault cause) => .error (.fault cause)

end Format

namespace FilePath

def format? (p : FilePath) : Option Format :=
  Format.ofSuffix? p.suffix

end FilePath

end Promptbook

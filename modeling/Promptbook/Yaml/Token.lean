import Promptbook.Yaml.Cursor

namespace Promptbook.Yaml

inductive Directive
  | version (major minor : Nat)
  | handle (name meaning : String)
  | other
  deriving DecidableEq, Repr

/-- A token. The last one of a text that cannot be cut into tokens to its end says why. -/
inductive Token
  | streamEnd
  | directive (d : Directive)
  | documentStart
  | documentEnd
  | blockSequence
  | blockMapping
  | blockEnd
  | flowSequence
  | flowSequenceEnd
  | flowMapping
  | flowMappingEnd
  | blockEntry
  | flowEntry
  | key
  | value
  | alias (name : String)
  | anchor (name : String)
  | tag (handle : Option String) (suffix : String)
  | scalar (text : String) (plain : Bool)
  | broken (stop : Stop)
  deriving DecidableEq, Repr

end Promptbook.Yaml

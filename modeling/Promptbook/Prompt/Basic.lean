import Promptbook.Heap.Display
import Promptbook.Heap.Equal

namespace Promptbook

structure Hints where
  languages : Value
  context : Value
  notes : Value
  legacy : Value
  deriving DecidableEq, Repr, Inhabited

structure Options where
  fields : Value
  defaults : Value
  rules : Value
  focus : Value
  threshold : Value
  deriving DecidableEq, Repr, Inhabited

/-- A prompt. Its serial number tells it from all others, even from one with the same fields. -/
structure Prompt where
  serial : Nat
  id : Value
  name : Value
  body : Value
  description : Value
  category : Category
  version : Value
  schemaVersion : Value
  options : Options
  hints : Option Hints
  author : Value
  created : Value
  modified : Value
  deriving DecidableEq, Repr, Inhabited

namespace Heap

def orElse (h : Heap) (v other : Value) : Except Fault Value := do
  return if ← h.truth v then v else other

def newList (h : Heap) (v : Value) : Except Fault (Value × Heap) := do
  let items ← h.iterate v
  return h.store (.list items)

/-- A new list of the items of a value; a value that does not count as true has none. -/
def newListOr (h : Heap) (v : Value) : Except Fault (Value × Heap) := do
  if ← h.truth v then h.newList v else return h.store (.list [])

/-- Key and value of the entry that one item of a sequence stands for. -/
def entryOf (h : Heap) (index : Nat) (item : Value) : Except Fault (Value × Value) :=
  match h.iterate item with
  | .ok [k, v] => do
    h.checkKey k
    return (k, v)
  | .ok xs => .error (.entryLength index xs.length)
  | .error _ => .error (.entryNotSequence index)

def entriesOfPairs (h : Heap) : Nat → Entries Value → List Value → Except Fault (Entries Value)
  | _, done, [] => .ok done
  | index, done, item :: items => do
    let (k, v) ← h.entryOf index item
    h.entriesOfPairs (index + 1) (Entries.put h k v done) items

/-- The entries that a value stands for: those of a mapping, or a sequence of pairs. -/
def entriesOf (h : Heap) (v : Value) : Except Fault (Entries Value) :=
  match h.mapping? v with
  | some m => m.items
  | none => do
    let items ← h.iterate v
    h.entriesOfPairs 0 [] items

def newDict (h : Heap) (v : Value) : Except Fault (Value × Heap) := do
  let es ← h.entriesOf v
  return h.store (.dict es)

/-- A new dictionary with the entries of a value; a value that does not count as true has none. -/
def newDictOr (h : Heap) (v : Value) : Except Fault (Value × Heap) := do
  if ← h.truth v then h.newDict v else return h.store (.dict [])

def record (h : Heap) (fields : List (String × Value)) : Value × Heap :=
  h.store (.dict (fields.map fun f => (.text f.1, f.2)))

def textList (h : Heap) (items : List String) : Value × Heap :=
  h.store (.list (items.map .text))

/-- The mapping that a record of data is; a value that does not count as true is an empty one. -/
def recordMapping (h : Heap) (v : Value) : Except Fault Mapping := do
  if ← h.truth v then h.asMapping v else return .entries []

def asCategory (h : Heap) (v : Value) : Except Fault Category :=
  match v.toCategory? with
  | some c => .ok c
  | none => do
    let q ← h.quote v
    throw (.notCategory q)

def present (fields : List (String × Value)) : List (String × Value) :=
  fields.filter fun f => f.2 ≠ .null

end Heap

namespace Hints

/-- Hints of a prompt that gives none: two new empty lists and nothing else. -/
def none (h : Heap) : Hints × Heap :=
  let (languages, h) := h.store (.list [])
  let (context, h) := h.store (.list [])
  (⟨languages, context, .null, .bool false⟩, h)

def ofValue (h : Heap) (data : Value) : Except Fault (Hints × Heap) := do
  let m ← h.recordMapping data
  let (languages, h) ← h.newListOr (← m.field "supported_languages")
  let (context, h) ← h.newListOr (← m.field "required_context")
  let notes ← m.field "performance_notes"
  let legacy ← m.get "legacy"
  let legacy ← h.truth (legacy.getD (.bool false))
  return (⟨languages, context, notes, .bool legacy⟩, h)

def toValue (h : Heap) (hints : Hints) : Except Fault (Value × Heap) := do
  let list (name : String) (v : Value) (h : Heap) :
      Except Fault (List (String × Value) × Heap) := do
    if ← h.truth v then
      let (copy, h) ← h.newList v
      return ([(name, copy)], h)
    else return ([], h)
  let (languages, h) ← list "supported_languages" hints.languages h
  let (context, h) ← list "required_context" hints.context h
  let notes := Heap.present [("performance_notes", hints.notes)]
  let legacy := if ← h.truth hints.legacy then [("legacy", Value.bool true)] else []
  return h.record (languages ++ context ++ notes ++ legacy)

end Hints

namespace Options

def none (h : Heap) : Options × Heap :=
  let (fields, h) := h.store (.list [])
  let (defaults, h) := h.store (.dict [])
  let (rules, h) := h.store (.dict [])
  (⟨fields, defaults, rules, .null, .null⟩, h)

def ofValue (h : Heap) (data : Value) : Except Fault (Options × Heap) := do
  let m ← h.recordMapping data
  let (fields, h) ← h.newListOr (← m.field "configurable_fields")
  let (defaults, h) ← h.newDictOr (← m.field "default_values")
  let (rules, h) ← h.newDictOr (← m.field "validation_rules")
  let focus ← m.field "focus_areas"
  let threshold ← m.field "severity_threshold"
  return (⟨fields, defaults, rules, focus, threshold⟩, h)

def toValue (h : Heap) (o : Options) : Except Fault (Value × Heap) := do
  let (fields, h) ← h.newList o.fields
  let (defaults, h) ← h.newDict o.defaults
  let (rules, h) ← h.newDict o.rules
  let base := [("configurable_fields", fields), ("default_values", defaults),
    ("validation_rules", rules)]
  let threshold := Heap.present [("severity_threshold", o.threshold)]
  if o.focus = .null then return h.record (base ++ threshold)
  else
    let (focus, h) ← h.newList o.focus
    return h.record (base ++ [("focus_areas", focus)] ++ threshold)

end Options

namespace Prompt

def textField (h : Heap) (m : Mapping) (name default : String) : Except Fault Value := do
  return .text (← h.text ((← m.get name).getD (.text default)))

/-- A prompt from a record of data, with the given serial number. Only the category is checked. A
body that is no dictionary is dropped. -/
def ofValue (h : Heap) (serial : Nat) (data : Value) : Except Fault (Prompt × Heap) := do
  let m ← h.asMapping data
  let category ← h.orElse (← m.field "category") (.text Category.general.name)
  let body ← m.field "template"
  let id ← textField h m "id" ""
  let given ← m.field "name"
  let name ←
    if ← h.truth given then (h.text given).map Value.text else textField h m "id" ""
  let description ← h.orElse (← m.field "description") (.text "")
  let category ← h.asCategory category
  let version ← textField h m "version" "1.0.0"
  let schemaVersion ← textField h m "schema_version" "1.0"
  let (options, h) ← Options.ofValue h (← m.field "config")
  let metadata ← m.field "metadata"
  let (hints, h) ←
    if ← h.truth metadata then (Hints.ofValue h metadata).map fun r => (some r.1, r.2)
    else pure (Option.none, h)
  let author ← m.field "author"
  let created ← m.field "created_date"
  let modified ← m.field "last_modified"
  let body := if h.isDict body then body else .null
  return ({ serial, id, name, body, description, category, version, schemaVersion, options,
            hints, author, created, modified }, h)

/-- A record of a prompt. The body is the prompt's own, not a copy. -/
def toValue (h : Heap) (p : Prompt) : Except Fault (Value × Heap) := do
  let (options, h) ← p.options.toValue h
  let base := [("id", p.id), ("name", p.name), ("description", p.description),
    ("category", .text p.category.name), ("version", p.version),
    ("schema_version", p.schemaVersion), ("template", p.body), ("config", options)]
  let (hints, h) ← match p.hints with
    | some hints => (hints.toValue h).map fun r => ([("metadata", r.1)], r.2)
    | none => pure ([], h)
  let last := Heap.present
    [("author", p.author), ("created_date", p.created), ("last_modified", p.modified)]
  return h.record (base ++ hints ++ last)

def declared (h : Heap) (p : Prompt) : List String :=
  match h.dict? p.body with
  | none => []
  | some es =>
    match (lookupText "variables" es).bind h.list? with
    | none => []
    | some xs => xs.filterMap Value.asText?

/-- Says whether two prompts have equal fields, whatever their serial numbers. -/
def sameFields (h : Heap) (p q : Prompt) : Except Fault Bool := do
  let same := Heap.allSame h.equalElement
  if !(← same [p.id, p.name, p.body, p.description, .category p.category, p.version,
      p.schemaVersion] [q.id, q.name, q.body, q.description, .category q.category, q.version,
      q.schemaVersion]) then return false
  let options (o : Options) := [o.fields, o.defaults, o.rules, o.focus, o.threshold]
  if !(← same (options p.options) (options q.options)) then return false
  let hints (o : Option Hints) :=
    (o.map fun m => [m.languages, m.context, m.notes, m.legacy]).getD []
  if !(← same (hints p.hints) (hints q.hints)) then return false
  same [p.author, p.created, p.modified] [q.author, q.created, q.modified]

end Prompt

structure Payload where
  content : Value
  hints : Hints
  used : List String
  deriving DecidableEq, Repr

def Payload.toValue (h : Heap) (p : Payload) : Except Fault (Value × Heap) := do
  let (hints, h) ← p.hints.toValue h
  let (used, h) := h.textList p.used
  return h.record [("content", p.content), ("metadata", hints), ("variables_used", used)]

end Promptbook

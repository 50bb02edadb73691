import Promptbook.Heap.Basic
import Promptbook.Prompt.Basic
import Promptbook.Review.Body

namespace Promptbook.Review

def recordFields : List String :=
  ["id", "name", "description", "category", "template", "config", "schema_version"]

def optionFields : List String := ["configurable_fields", "default_values", "validation_rules"]

def idLimit : Nat := 100

def nameLimit : Nat := 200

def descriptionLimit : Nat := 1000

def idVerdict (v : Value) : Verdict :=
  textRule v "Prompt ID must be a string" fun s => .join [
    .errorIf (!isIdentifier s.toList)
      "Prompt ID must contain only alphanumeric characters, underscores, and hyphens",
    .errorIf (idLimit < s.length) s!"Prompt ID must be {idLimit} characters or less"]

def nameVerdict (v : Value) : Verdict :=
  textRule v "Prompt name must be a string" fun s => .join [
    .errorIf (nameLimit < s.length) s!"Prompt name must be {nameLimit} characters or less",
    .errorIf (!Text.hasInk s) "Prompt name cannot be empty"]

def descriptionVerdict (v : Value) : Verdict :=
  textRule v "Prompt description must be a string" fun s =>
    .warnIf (descriptionLimit < s.length)
      s!"Prompt description is very long (>{descriptionLimit} characters)"

def categoryVerdict (h : Heap) (v : Value) : Except Fault Verdict :=
  if v = .null || v.toCategory?.isSome then .ok .clean
  else do
    let shown ← h.text v
    let names := ", ".intercalate (Category.all.map Category.name)
    return .error s!"Invalid prompt category: {shown}. Must be one of: {names}"

def schemaVerdict (versions : List String) (h : Heap) (v : Value) : Except Fault Verdict :=
  match v, v.asText? with
  | .null, _ => .ok .clean
  | _, none => .ok (.error "Schema version must be a string")
  | _, some s =>
    if s ∈ versions then .ok .clean
    else do
      let shown ← h.text v
      return .warning (s!"Unsupported schema version: {shown}. " ++
        "Supported versions: " ++ ", ".intercalate versions)

def versionVerdict (v : Value) : Verdict :=
  textRule v "Version must be a string" fun s =>
    .warnIf (!isVersion s.toList)
      "Version should follow semantic versioning format (e.g., 1.0.0)"

def dateVerdict (h : Heap) (label : String) (v : Value) : Except Fault Verdict := do
  let given ← h.truth v
  return .warnIf (given && !v.asText?.any fun s => isDate s.toList)
    s!"{label} date is not in a valid format"

def ownFieldsVerdict (settings : ReviewSettings) (h : Heap) (m : Mapping) :
    Except Fault Verdict := do
  let id ← m.field "id"
  let name ← m.field "name"
  let description ← m.field "description"
  let category ← categoryVerdict h (← m.field "category")
  let schema ← schemaVerdict settings.versions h (← m.field "schema_version")
  let version ← m.field "version"
  let created ← dateVerdict h "Created" (← m.field "created_date")
  let modified ← dateVerdict h "Last modified" (← m.field "last_modified")
  return .join [idVerdict id, nameVerdict name, descriptionVerdict description, category, schema,
    versionVerdict version, created, modified]

def configurableVerdict (h : Heap) (v : Value) : Verdict :=
  match v, h.list? v with
  | .null, _ => .clean
  | _, none => .error "Config configurable_fields must be an array"
  | _, some names => .errorIf (!names.all isText) "All configurable_fields must be strings"

def mappingVerdict (h : Heap) (name : String) (v : Value) : Verdict :=
  .errorIf (v ≠ .null && !h.isMapping v) s!"Config {name} must be an object"

def options (h : Heap) (v : Value) : Except Fault Verdict :=
  match h.mapping? v with
  | none => .ok (.error "Config is null or undefined")
  | some m => do
    let required ← require m optionFields
    let configurable ← m.field "configurable_fields"
    let defaults ← m.field "default_values"
    let rules ← m.field "validation_rules"
    let focus ← m.field "focus_areas"
    let focused ← h.truth focus
    let threshold ← m.field "severity_threshold"
    let limited ← h.truth threshold
    return .join [
      required,
      configurableVerdict h configurable,
      mappingVerdict h "default_values" defaults,
      mappingVerdict h "validation_rules" rules,
      .errorIf (focused && !h.isList focus) "Config focus_areas must be an array",
      .errorIf (limited && !isText threshold)
        "Config severity_threshold must be a string"]

def lostFields (h : Heap) (content : Value) : List Value → Except Fault Verdict
  | [] => .ok .clean
  | v :: vs => do
    let here ← match v.asText? with
      | none => pure .clean
      | some s => do
        let found ← h.hasPath s content
        pure (.warnIf (!found) s!"Configurable field '{← h.text v}' not found in template")
    let rest ← lostFields h content vs
    return here ++ rest

def strayDefaults (h : Heap) (names : List Value) : List Value → Except Fault Verdict
  | [] => .ok .clean
  | key :: keys => do
    let here ←
      if ← h.listHas names key then pure .clean
      else do
        let shown ← h.text key
        pure (.warning s!"Default value for '{shown}' but field is not configurable")
    let rest ← strayDefaults h names keys
    return here ++ rest

def agreementVerdict (h : Heap) (m : Mapping) : Except Fault Verdict := do
  let content ← m.field "template"
  let given ← m.field "config"
  match h.mapping? content, h.mapping? given with
  | some _, some o =>
    let configurable ← o.field "configurable_fields"
    let names := if ← h.truth configurable then h.list? configurable else some []
    match names with
    | none => return .clean
    | some names =>
      let lost ← lostFields h content names
      let defaults ← o.field "default_values"
      let keys :=
        if ← h.truth defaults then (h.mapping? defaults).map Mapping.keys else none
      let stray ← strayDefaults h names (keys.getD [])
      return lost ++ stray
  | _, _ => return .clean

def unlessNull (v : Value) (review : Value → Except Fault Verdict) : Except Fault Verdict :=
  if v = .null then .ok .clean else review v

def record (settings : ReviewSettings) (h : Heap) (v : Value) : Except Fault Verdict :=
  match h.mapping? v, h.truthy v with
  | some m, true => do
    let required ← require m recordFields
    let own ← ownFieldsVerdict settings h m
    let content ← unlessNull (← m.field "template") (body settings h)
    let given ← unlessNull (← m.field "config") (options h)
    let agreement ← agreementVerdict h m
    return .join [required, own, content, given, agreement]
  | _, _ => do
    let _ ← h.truth v
    return .error "Prompt is null or undefined"

def prompt (settings : ReviewSettings) (h : Heap) (p : Prompt) : Except Fault Verdict := do
  let (v, h) ← p.toValue h
  record settings h v

end Promptbook.Review

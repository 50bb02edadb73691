import Promptbook.Heap.Basic
import Promptbook.Settings.Basic
import Promptbook.Settings.WholeNumber
import Promptbook.Text.Utf8

namespace Promptbook.Settings

def textOf? (v : Value) : Option (Except Text.Utf8Fault (List Char)) :=
  match v, v.asText? with
  | .bytes data, _ => some (Text.decodeUtf8 data)
  | _, some s => some (.ok s.toList)
  | _, none => none

def realBound : Int := (twoTo 63 : Nat)

def integerOfReal (x : Binary64) : Except Complaint Int :=
  if !x.isFinite then .error .notFinite
  else
    match x.toInt? with
    | none => .error .fractional
    | some n => if -realBound < n && n < realBound then .ok n else .error .longInteger

def integer (v : Value) : Except Complaint Int :=
  match v, textOf? v with
  | _, some (.ok s) => wholeNumber s
  | _, some (.error _) => .error .unreadInteger
  | .real x, none => integerOfReal x
  | v, none =>
    match v.asInt? with
    | some n => .ok n
    | none => .error .notInteger

def positive (v : Value) : Except Complaint Nat :=
  match integer v with
  | .error c => .error c
  | .ok n => if 0 < n then .ok n.toNat else .error .notPositive

theorem positive_pos {v : Value} {n : Nat} (h : positive v = .ok n) : 0 < n := by
  unfold positive at h
  split at h
  · cases h
  · split at h
    · cases h
      omega
    · cases h

def trueWords : List String := ["1", "on", "t", "true", "y", "yes"]

def falseWords : List String := ["0", "off", "f", "false", "n", "no"]

def boolOfText (s : List Char) : Except Complaint Bool :=
  let word := String.ofList (s.map Char.toLower)
  if word ∈ trueWords then .ok true
  else if word ∈ falseWords then .ok false
  else .error .unreadBool

def boolOfInt (n : Int) : Except Complaint Bool :=
  if n = 0 then .ok false else if n = 1 then .ok true else .error .unreadBool

def bool (v : Value) : Except Complaint Bool :=
  match v, textOf? v with
  | .bool b, _ => .ok b
  | _, some (.ok s) => boolOfText s
  | _, some (.error _) => .error .unreadBool
  | .int n, none => if -realBound ≤ n && n < realBound then boolOfInt n else .error .notBool
  | .real x, none =>
    match integerOfReal x with
    | .ok n => boolOfInt n
    | .error _ => .error .notBool
  | _, none => .error .notBool

def text (v : Value) : Except Complaint String :=
  match textOf? v with
  | some (.ok s) => .ok (String.ofList s)
  | some (.error _) => .error .badUtf8
  | none => .error .notText

def level (v : Value) : Except Complaint LevelName :=
  match v with
  | .text s =>
    match LevelName.ofName? s with
    | some l => .ok l
    | none => .error .unknownName
  | _ => .error .unknownName

def textItems : Nat → List Value → Checked (List String)
  | _, [] => ⟨[], []⟩
  | index, v :: vs =>
    let here := (Checked.ofExcept "" (text v)).within (.item index)
    let rest := textItems (index + 1) vs
    ⟨here.flaws ++ rest.flaws, here.value :: rest.value⟩

def texts (h : Heap) (v : Value) : Checked (List String) :=
  match h.node? v with
  | some (.list xs) | some (.tuple xs) | some (.set xs) => textItems 0 xs
  | _ => ⟨[⟨[], .notList⟩], []⟩

abbrev Record := List (Value × Value)

/-- Reads a field of a record; one that is missing has its default. -/
def field {α : Type} (r : Record) (name : String) (default : α) (read : Value → Checked α) :
    Checked α :=
  match lookupText name r with
  | none => ⟨[], default⟩
  | some v => (read v).within (.field name)

def leaf {α : Type} (r : Record) (name : String) (default : α)
    (read : Value → Except Complaint α) : Checked α :=
  field r name default fun v => .ofExcept default (read v)

/-- Settings of reports from a record. The rule on the two thresholds is checked only if every
field by itself is right. -/
def report (r : Record) : Checked ReportSettings :=
  let base : ReportSettings := {}
  let tag := leaf r "log_prefix" base.tag text
  let logs := leaf r "console_logging" base.logs bool
  let limit := leaf r "max_context_length" base.contextLimit positive
  let frequent := leaf r "frequent_threshold" base.frequent positive
  let critical := leaf r "critical_threshold" base.critical positive
  let flaws := tag.flaws ++ logs.flaws ++ limit.flaws ++ frequent.flaws ++ critical.flaws
  let reversed := flaws.isEmpty && critical.value < frequent.value
  { flaws := if reversed then [⟨[], .thresholdsReversed⟩] else flaws
    value := ⟨tag.value, logs.value, limit.value, frequent.value, critical.value⟩ }

theorem frequent_le_critical {r : Record} {x : ReportSettings}
    (h : (report r).toExcept = .ok x) : x.frequent ≤ x.critical := by
  obtain ⟨hflaws, hvalue⟩ := Checked.toExcept_eq_ok h
  subst hvalue
  simp only [report] at hflaws ⊢
  split at hflaws
  · cases hflaws
  · rename_i hrev
    rw [hflaws] at hrev
    simpa using hrev

def review (h : Heap) (r : Record) : Checked ReviewSettings :=
  let base : ReviewSettings := {}
  let fieldLimit := leaf r "max_field_length" base.fieldLimit positive
  let variableLimit := leaf r "max_variables" base.variableLimit positive
  let depthLimit := leaf r "max_context_depth" base.depthLimit positive
  let versions := field r "supported_schema_versions" base.versions (texts h)
  { flaws := fieldLimit.flaws ++ variableLimit.flaws ++ depthLimit.flaws ++ versions.flaws
    value := ⟨fieldLimit.value, variableLimit.value, depthLimit.value, versions.value⟩ }

def log (r : Record) : Checked LogSettings :=
  let level := leaf r "level" ({} : LogSettings).level level
  ⟨level.flaws, ⟨level.value⟩⟩

/-- Reads a field that is a record itself. A mapping that refuses to be read has no entries. -/
def part {α : Type} (h : Heap) (r : Record) (name : String) (default : α)
    (read : Record → Checked α) : Checked α :=
  field r name default fun v =>
    match h.mapping? v with
    | some m => read (m.items.toOption.getD [])
    | none => ⟨[⟨[], .notRecord⟩], default⟩

def config (h : Heap) (r : Record) : Checked Config :=
  let report := part h r "resilience" {} report
  let review := part h r "validator" {} (review h)
  let log := part h r "logging" {} log
  let directories := field r "prompt_dirs" [] (texts h)
  { flaws := report.flaws ++ review.flaws ++ log.flaws ++ directories.flaws
    value := ⟨report.value, review.value, log.value, directories.value⟩ }

def checkNames (r : Record) : Except Fault Unit :=
  if r.all fun e => e.1.asText?.isSome then .ok () else .error .keywordNotText

end Promptbook.Settings

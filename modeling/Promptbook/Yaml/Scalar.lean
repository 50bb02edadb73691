import Promptbook.Number.Numeral
import Promptbook.Text.Base64
import Promptbook.Text.Lowercase
import Promptbook.Value
import Promptbook.Yaml.Tag
import Promptbook.Yaml.Timestamp

namespace Promptbook.Yaml

def Tag.ofPlain (text : String) : Tag :=
  let s := dropLastFeed text.toList
  let word := String.ofList s
  if word ∈ boolWords then .bool
  else if isRealForm s then .real
  else if isIntegerForm s then .int
  else if word = "<<" then .merge
  else if text = "" || (word ≠ "" && word ∈ nullWords) then .null
  else if (WrittenDate.ofChars? s).any WrittenDate.isPlain then .timestamp
  else if word = "=" then .value
  else if word ∈ ["!", "&", "*"] then .other (common ++ "yaml")
  else .text

namespace Scalar

def fail {α : Type} (cause : Fault) : Except Stop α := .error (.fault cause)

def dropUnderscores (s : List Char) : List Char :=
  s.filter (· ≠ '_')

def integerIn (base : Nat) (s : List Char) : Except Stop Int :=
  match Number.integer? base s with
  | none => fail (.badInteger base (String.ofList s))
  | some n =>
    if base = 10 && Fault.digitLimit < Number.digitCount s then
      fail (.tooManyDigits (some (Number.digitCount s)))
    else .ok n

def realIn (s : List Char) : Except Stop Binary64 :=
  match Number.real? s with
  | some x => .ok x
  | none => fail (.badReal (String.ofList s))

def each {α β : Type} (step : α → Except Stop β) : List α → Except Stop (List β)
  | [] => .ok []
  | x :: xs => do
    let y ← step x
    let ys ← each step xs
    return y :: ys

/-- A sign and what follows it. There has to be something to look at. -/
def splitSign (s : List Char) : Except Stop (Bool × List Char) :=
  match s with
  | [] => fail .indexRange
  | '-' :: rest => .ok (true, rest)
  | '+' :: rest => .ok (false, rest)
  | s => .ok (false, s)

/-- An integer without its sign: in the base that its first characters say, or in the base of sixty
if it has colons. -/
def magnitude (s : List Char) : Except Stop Int :=
  match s with
  | [] => fail .indexRange
  | ['0'] => .ok 0
  | '0' :: 'b' :: ds => integerIn 2 ds
  | '0' :: 'x' :: ds => integerIn 16 ds
  | '0' :: ds => integerIn 8 ('0' :: ds)
  | s =>
    if s.contains ':' then do
      let parts ← each (integerIn 10) (colonParts s)
      return parts.foldl (fun n d => n * 60 + d) 0
    else integerIn 10 s

def integer (s : List Char) : Except Stop Int := do
  let (negative, body) ← splitSign (dropUnderscores s)
  let n ← magnitude body
  return if negative then -n else n

def addSexagesimal (parts : List Binary64) : Binary64 :=
  let scaled := parts.reverse.zipIdx.map fun (x, i) => x.mul (Binary64.ofInt (Nat.pow 60 i))
  scaled.foldl Binary64.add (Binary64.zero false)

def realMagnitude (s : List Char) : Except Stop Binary64 :=
  if s = ".inf".toList then .ok (Binary64.infinity false)
  else if s = ".nan".toList then .ok Binary64.nan
  else if s.contains ':' then do
    let parts ← each realIn (colonParts s)
    return addSexagesimal parts
  else realIn s

def real (s : List Char) : Except Stop Binary64 := do
  let lowered := (Text.lower (String.ofList (dropUnderscores s))).toList
  let (negative, body) ← splitSign lowered
  let x ← realMagnitude body
  return if negative then x.negate else x

def bool (s : String) : Except Stop Bool :=
  let word := Text.lower s
  if word ∈ ["yes", "true", "on"] then .ok true
  else if word ∈ ["no", "false", "off"] then .ok false
  else fail (.noKey (Text.quote word))

def binary (s : List Char) : Except Stop (List UInt8) :=
  if s.all fun c => c.toNat < 128 then
    match Text.decodeBase64 s with
    | some data => .ok data
    | none => .error .malformed
  else .error .malformed

def calendar {α : Type} : Except CalendarFault α → Except Stop α
  | .ok x => .ok x
  | .error cause => fail (.calendar cause)

def timestamp (s : List Char) : Except Stop Value :=
  match WrittenDate.ofChars? (dropLastFeed s) with
  | none => fail (.noAttribute "NoneType" "groupdict")
  | some d =>
    match d.time with
    | none => (calendar (Date.ofNumbers d.year d.month d.day)).map .date
    | some t =>
      (calendar (Moment.ofNumbers d.year d.month d.day t.hour t.minute t.second
        (WrittenDate.micros t.fraction) t.offset)).map .moment

/-- The value of a scalar with a tag. There is none for a tag that scalars cannot have. -/
def value? (tag : Tag) (text : String) : Option (Except Stop Value) :=
  match tag with
  | .null => some (.ok .null)
  | .bool => some ((bool text).map .bool)
  | .int => some ((integer text.toList).map .int)
  | .real => some ((real text.toList).map .real)
  | .binary => some ((binary text.toList).map .bytes)
  | .timestamp => some (timestamp text.toList)
  | .text => some (.ok (.text text))
  | _ => none

end Scalar

end Promptbook.Yaml

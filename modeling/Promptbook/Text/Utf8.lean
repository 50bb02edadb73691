namespace Promptbook.Text

inductive Utf8Cause
  | invalidStart
  | invalidContinuation
  | unexpectedEnd
  deriving DecidableEq, Repr

/-- The first fault of an encoded text: its cause and the bytes it spans. -/
structure Utf8Fault where
  cause : Utf8Cause
  first : UInt8
  start : Nat
  width : Nat
  deriving DecidableEq, Repr

def Utf8Cause.message : Utf8Cause → String
  | .invalidStart => "invalid start byte"
  | .invalidContinuation => "invalid continuation byte"
  | .unexpectedEnd => "unexpected end of data"

/-- A fault of one byte names the byte; a longer one names the range. -/
def Utf8Fault.message (f : Utf8Fault) : String :=
  let hex (n : Nat) := String.ofList [Nat.digitChar (n / 16), Nat.digitChar (n % 16)]
  if f.width = 1 then
    s!"'utf-8' codec can't decode byte 0x{hex f.first.toNat} in position {f.start}: " ++
      f.cause.message
  else
    s!"'utf-8' codec can't decode bytes in position {f.start}-{f.start + f.width - 1}: " ++
      f.cause.message

def isContinuation (b : UInt8) : Bool :=
  0x80 ≤ b && b < 0xc0

/-- Number of bytes that a first byte announces, and the range of the second byte. -/
def leadByte (b : UInt8) : Option (Nat × UInt8 × UInt8) :=
  if b < 0x80 then some (1, 0, 0)
  else if b < 0xc2 then none
  else if b < 0xe0 then some (2, 0x80, 0xbf)
  else if b < 0xf0 then
    some (3, if b = 0xe0 then 0xa0 else 0x80, if b = 0xed then 0x9f else 0xbf)
  else if b < 0xf5 then
    some (4, if b = 0xf0 then 0x90 else 0x80, if b = 0xf4 then 0x8f else 0xbf)
  else none

def codePoint (lead : UInt8) (tail : List UInt8) : Nat :=
  let bits := match tail.length with
    | 0 => lead.toNat
    | 1 => lead.toNat % 0x20
    | 2 => lead.toNat % 0x10
    | _ => lead.toNat % 0x08
  tail.foldl (fun n b => n * 64 + b.toNat % 64) bits

/-- The continuation bytes of a character that needs `need` of them, or the fault and the
number of bytes it spans. -/
def takeTail (need : Nat) (low high : UInt8) (rest : List UInt8) :
    Except (Utf8Cause × Nat) (List UInt8) :=
  let tail := rest.take need
  match tail with
  | [] => if need = 0 then .ok [] else .error (.unexpectedEnd, 1)
  | second :: others =>
    if second < low || high < second then .error (.invalidContinuation, 1)
    else
      let good := others.takeWhile isContinuation
      if good.length < others.length then .error (.invalidContinuation, good.length + 2)
      else if tail.length < need then .error (.unexpectedEnd, tail.length + 1)
      else .ok tail

/-- Decodes the bytes from position `start` on, with the characters before them in reverse. -/
def decodeUtf8From (start : Nat) (done : List Char) (bytes : List UInt8) :
    Except Utf8Fault (List Char) :=
  match bytes with
  | [] => .ok done.reverse
  | lead :: rest =>
    match leadByte lead with
    | none => .error ⟨.invalidStart, lead, start, 1⟩
    | some (size, low, high) =>
      match takeTail (size - 1) low high rest with
      | .error (cause, width) => .error ⟨cause, lead, start, width⟩
      | .ok tail =>
        decodeUtf8From (start + size) (Char.ofNat (codePoint lead tail) :: done)
          (rest.drop (size - 1))
  termination_by bytes.length
  decreasing_by simp only [List.length_drop, List.length_cons]; omega

def decodeUtf8 (bytes : List UInt8) : Except Utf8Fault (List Char) :=
  decodeUtf8From 0 [] bytes

end Promptbook.Text

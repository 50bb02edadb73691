namespace Promptbook

def twoTo (n : Nat) : Nat :=
  Nat.pow 2 n

def tenTo (n : Nat) : Nat :=
  Nat.pow 10 n

structure Binary64 where
  bits : UInt64
  deriving DecidableEq, Repr, Inhabited

inductive Binary64.Reading
  | nan
  | infinite (negative : Bool)
  | finite (negative : Bool) (significand : Nat) (exponent : Int)
  deriving DecidableEq, Repr

namespace Binary64

def reading (x : Binary64) : Reading :=
  let n := x.bits.toNat
  let negative := twoTo 63 ≤ n
  let biased : Nat := n / twoTo 52 % 2048
  let fraction : Nat := n % twoTo 52
  if biased = 2047 then
    if fraction = 0 then .infinite negative else .nan
  else if biased = 0 then .finite negative fraction (-1074)
  else .finite negative (twoTo 52 + fraction) ((biased : Int) - 1075)

def withSign (negative : Bool) (magnitude : Nat) : Binary64 :=
  ⟨UInt64.ofNat (magnitude + if negative then twoTo 63 else 0)⟩

def infinityBits : Nat := 2047 * twoTo 52

def infinity (negative : Bool) : Binary64 := withSign negative infinityBits

def nan : Binary64 := ⟨0x7ff8000000000000⟩

def zero (negative : Bool) : Binary64 := withSign negative 0

def floorLog2 (num den : Nat) : Int :=
  let e : Int := (num.log2 : Int) - den.log2
  let fits := if 0 ≤ e then den * twoTo e.toNat ≤ num else den ≤ num * twoTo (-e).toNat
  if fits then e else e - 1

/-- Quotient to the nearest integer; a half goes to the even neighbour. -/
def roundDiv (num den : Nat) : Nat :=
  let q := num / den
  let r := num % den
  if 2 * r < den then q
  else if den < 2 * r then q + 1
  else q + q % 2

/-- The number nearest to a quotient; a tie goes to the even significand. -/
def ofQuotient (negative : Bool) (num den : Nat) : Binary64 :=
  if num = 0 then zero negative
  else
    let shift := max (floorLog2 num den - 52) (-1074)
    let significand :=
      if 0 ≤ shift then roundDiv num (den * twoTo shift.toNat)
      else roundDiv (num * twoTo (-shift).toNat) den
    let magnitude := (shift + 1074).toNat * twoTo 52 + significand
    if infinityBits ≤ magnitude then infinity negative else withSign negative magnitude

/-- The number nearest to `digits * 10 ^ exponent`. Exponents beyond the range of the format
are settled without computing the power. -/
def ofDecimal (negative : Bool) (digits : Nat) (exponent : Int) : Binary64 :=
  if digits = 0 then zero negative
  else
    let size : Int := (Nat.toDigits 10 digits).length
    if 400 < size + exponent then infinity negative
    else if size + exponent < -400 then zero negative
    else if 0 ≤ exponent then ofQuotient negative (digits * tenTo exponent.toNat) 1
    else ofQuotient negative digits (tenTo (-exponent).toNat)

def ofInt (n : Int) : Binary64 :=
  ofQuotient (n < 0) n.natAbs 1

/-- The number nearest to `(-1) ^ negative * significand * 2 ^ exponent`. -/
def ofScaled (negative : Bool) (significand : Nat) (exponent : Int) : Binary64 :=
  if 0 ≤ exponent then ofQuotient negative (significand * twoTo exponent.toNat) 1
  else ofQuotient negative significand (twoTo (-exponent).toNat)

def isNan (x : Binary64) : Bool := x.reading = .nan

def isZero (x : Binary64) : Bool :=
  match x.reading with
  | .finite _ 0 _ => true
  | _ => false

def isFinite (x : Binary64) : Bool :=
  match x.reading with
  | .finite .. => true
  | _ => false

def negate (x : Binary64) : Binary64 :=
  ⟨x.bits ^^^ 0x8000000000000000⟩

def toInt? (x : Binary64) : Option Int :=
  match x.reading with
  | .finite negative m e =>
    let magnitude? : Option Nat :=
      if 0 ≤ e then some (m * twoTo e.toNat)
      else if m % twoTo (-e).toNat = 0 then some (m / twoTo (-e).toNat)
      else none
    magnitude?.map fun n => if negative then -(n : Int) else n
  | _ => none

def atMost (x : Binary64) (n : Nat) : Bool :=
  match x.reading with
  | .nan => false
  | .infinite negative => negative
  | .finite true _ _ => true
  | .finite false m e =>
    if 0 ≤ e then m * twoTo e.toNat ≤ n else m ≤ n * twoTo (-e).toNat

def mul (x y : Binary64) : Binary64 :=
  match x.reading, y.reading with
  | .finite s m e, .finite t n f => ofScaled (s != t) (m * n) (e + f)
  | .infinite s, .infinite t => infinity (s != t)
  | .infinite s, .finite t n _ => if n = 0 then nan else infinity (s != t)
  | .finite s m _, .infinite t => if m = 0 then nan else infinity (s != t)
  | _, _ => nan

def aligned (negative : Bool) (m : Nat) (e low : Int) : Int :=
  let n : Int := (m * twoTo (e - low).toNat : Nat)
  if negative then -n else n

def add (x y : Binary64) : Binary64 :=
  match x.reading, y.reading with
  | .finite s m e, .finite t n f =>
    let low := min e f
    let total := aligned s m e low + aligned t n f low
    if total = 0 then zero (s && t) else ofScaled (total < 0) total.natAbs low
  | .infinite s, .infinite t => if s = t then x else nan
  | .infinite _, .finite .. => x
  | .finite .., .infinite _ => y
  | _, _ => nan

/-- Equality of values: the two zeros are equal, and a number that is none equals nothing. -/
def same (x y : Binary64) : Bool :=
  !x.isNan && !y.isNan && (x == y || (x.isZero && y.isZero))

end Binary64

end Promptbook

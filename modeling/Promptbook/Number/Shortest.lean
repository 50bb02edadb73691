import Promptbook.Number.Binary64

namespace Promptbook.Binary64

structure Decimal where
  digits : Nat
  exponent : Int
  deriving DecidableEq, Repr

def compareScaled (a : Nat) (e : Int) (m : Nat) (q : Int) : Ordering :=
  compare (a * tenTo e.toNat * twoTo (-q).toNat) (m * twoTo q.toNat * tenTo (-e).toNat)

/-- Says whether a decimal rounds to `m * 2 ^ q`: it lies between the midpoints to the
neighbouring numbers, which count themselves if the significand is even. The lower neighbour is
closer where the significand is the least of its binade. -/
def roundsTo (d : Decimal) (m : Nat) (q : Int) : Bool :=
  let even := m % 2 = 0
  let least := m = twoTo 52 && -1074 < q
  let above := compareScaled d.digits d.exponent (2 * m + 1) (q - 1)
  let below := if least then compareScaled d.digits d.exponent (4 * m - 1) (q - 2)
    else compareScaled d.digits d.exponent (2 * m - 1) (q - 1)
  (above = .lt || (even && above = .eq)) && (below = .gt || (even && below = .eq))

/-- The least `k` with `m * 2 ^ q < 10 ^ k`, found from an estimate by binary length. -/
def decimalPoint (m : Nat) (q : Int) : Int :=
  let estimate : Int := ((m.log2 : Int) + q) * 30103 / 100000
  let smaller (k : Int) := compareScaled 1 k m q = .gt
  if smaller (estimate - 1) then estimate - 1
  else if smaller estimate then estimate
  else if smaller (estimate + 1) then estimate + 1
  else estimate + 2

/-- The two neighbours of `m * 2 ^ q` among the multiples of `10 ^ e`, nearest first. -/
def neighbours (m : Nat) (q e : Int) : List Decimal :=
  let num := m * twoTo q.toNat * tenTo (-e).toNat
  let den := twoTo (-q).toNat * tenTo e.toNat
  let low := num / den
  let rest := num % den
  let down : Decimal := ⟨low, e⟩
  let up : Decimal := ⟨low + 1, e⟩
  if 2 * rest < den || (2 * rest = den && low % 2 = 0) then [down, up] else [up, down]

/-- The first decimal with `n` digits or more that rounds to `m * 2 ^ q`. -/
def shortestFrom (m : Nat) (q point : Int) : Nat → Nat → Decimal
  | _, 0 => ⟨m, q⟩
  | n, fuel + 1 =>
    match (neighbours m q (point - n)).find? fun d => roundsTo d m q with
    | some d => d
    | none => shortestFrom m q point (n + 1) fuel

/-- The shortest decimal that rounds to `m * 2 ^ q`, and of those the nearest. Seventeen digits
always suffice. -/
def shortest (m : Nat) (q : Int) : Decimal :=
  shortestFrom m q (decimalPoint m q) 1 17

def dropTrailingZeros (ds : List Char) : List Char :=
  (ds.reverse.dropWhile (· = '0')).reverse

def exponentText (e : Int) : List Char :=
  let ds := Nat.toDigits 10 e.natAbs
  (if e < 0 then '-' else '+') :: (if ds.length < 2 then '0' :: ds else ds)

/-- Digits with the decimal point after the first `point` of them. Numbers from `10 ^ -4` up to
`10 ^ 16` are written out, with one digit at least after the point; all others with an exponent. -/
def placePoint (ds : List Char) (point : Int) : List Char :=
  if -4 < point ∧ point ≤ 16 then
    if point ≤ 0 then '0' :: '.' :: List.replicate (-point).toNat '0' ++ ds
    else
      let p := point.toNat
      if ds.length ≤ p then ds ++ List.replicate (p - ds.length) '0' ++ ['.', '0']
      else ds.take p ++ '.' :: ds.drop p
  else
    ds.take 1 ++ (if ds.length ≤ 1 then [] else '.' :: ds.drop 1) ++
      'e' :: exponentText (point - 1)

def magnitudeText (m : Nat) (q : Int) : List Char :=
  if m = 0 then ['0', '.', '0']
  else
    let d := shortest m q
    let all := Nat.toDigits 10 d.digits
    placePoint (dropTrailingZeros all) (all.length + d.exponent)

def textWith (nanText infinityText : String) (x : Binary64) : String :=
  match x.reading with
  | .nan => nanText
  | .infinite negative => (if negative then "-" else "") ++ infinityText
  | .finite negative m q =>
    String.ofList ((if negative then ['-'] else []) ++ magnitudeText m q)

def text (x : Binary64) : String :=
  x.textWith "nan" "inf"

end Promptbook.Binary64

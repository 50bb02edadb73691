namespace Promptbook.Text

def base64Value? (c : Char) : Option Nat :=
  if 'A' ≤ c && c ≤ 'Z' then some (c.toNat - 'A'.toNat)
  else if 'a' ≤ c && c ≤ 'z' then some (c.toNat - 'a'.toNat + 26)
  else if '0' ≤ c && c ≤ '9' then some (c.toNat - '0'.toNat + 52)
  else if c = '+' then some 62
  else if c = '/' then some 63
  else none

/-- Decodes the rest of a base-64 text. `filled` counts the characters of the present group of
four, `left` holds the bits that no byte has taken yet, and `pads` counts the padding marks since
the last character. A text that ends inside a group has no meaning. -/
def decodeBase64From (filled left pads : Nat) : List Char → Option (List UInt8)
  | [] => if filled = 0 then some [] else none
  | '=' :: rest =>
    if 2 ≤ filled then
      if 4 ≤ filled + (pads + 1) then some [] else decodeBase64From filled left (pads + 1) rest
    else decodeBase64From filled left pads rest
  | c :: rest =>
    match base64Value? c with
    | none => decodeBase64From filled left pads rest
    | some v =>
      match filled with
      | 0 => decodeBase64From 1 v 0 rest
      | 1 => (decodeBase64From 2 (v % 16) 0 rest).map (UInt8.ofNat (left * 4 + v / 16) :: ·)
      | 2 => (decodeBase64From 3 (v % 4) 0 rest).map (UInt8.ofNat (left * 16 + v / 4) :: ·)
      | _ => (decodeBase64From 0 0 0 rest).map (UInt8.ofNat (left * 64 + v) :: ·)

/-- Decodes a base-64 text; `none` if its last group is incomplete. -/
def decodeBase64 (s : List Char) : Option (List UInt8) :=
  decodeBase64From 0 0 0 s

end Promptbook.Text

import Mathlib.Data.List.Basic
import Promptbook.Json.Reader

namespace Promptbook.Json

variable {n fuel : Nat} {c : Char} {cs rest start done : List Char}

section Escapes

theorem hexValue?_hexDigit : ∀ d < 16, hexValue? (Text.hexDigit d) = some d := by
  decide

theorem hexPadded_four (n : Nat) : Text.hexPadded 4 n =
    [Text.hexDigit (n / 16 / 16 / 16 % 16), Text.hexDigit (n / 16 / 16 % 16),
      Text.hexDigit (n / 16 % 16), Text.hexDigit (n % 16)] := rfl

theorem drop_hexPadded (n : Nat) (rest : List Char) :
    (Text.hexPadded 4 n ++ rest).drop 4 = rest := rfl

theorem hexUnit?_hexPadded (hn : n < 0x10000) (rest : List Char) :
    hexUnit? (Text.hexPadded 4 n ++ rest) = some n := by
  have hdigit : ∀ m, hexValue? (Text.hexDigit (m % 16)) = some (m % 16) :=
    fun m => hexValue?_hexDigit _ (Nat.mod_lt m (by decide))
  simp only [hexPadded_four, List.cons_append, hexUnit?, hdigit, Option.bind_eq_bind,
    Option.bind_some, Option.pure_def, Option.some.injEq]
  omega

theorem toNat_valid (c : Char) : c.toNat < 0xd800 ∨ 0xdfff < c.toNat ∧ c.toNat < 0x110000 :=
  c.valid

theorem unitChar_toNat (c : Char) : unitChar c.toNat = c := by
  have hwhole : ¬ (0xd800 ≤ c.toNat ∧ c.toNat < 0xe000) := by
    have hc := toNat_valid c
    omega
  rw [unitChar, if_neg hwhole, Char.ofNat_toNat]

theorem readUnicodeEscape_unit (hc : c.toNat < 0x10000) (hrest : rest ≠ []) :
    readUnicodeEscape (Text.hexPadded 4 c.toNat ++ rest) = .ok (c, rest) := by
  have hhigh : ¬ (0xd800 ≤ c.toNat ∧ c.toNat < 0xdc00) := by
    have hvalid := toNat_valid c
    omega
  rw [readUnicodeEscape, drop_hexPadded, if_neg (by simpa using hrest),
    hexUnit?_hexPadded hc rest]
  dsimp only
  split
  · next more =>
    rw [if_neg fun hpair => hhigh ⟨hpair.1, hpair.2.1⟩, unitChar_toNat]
  · rw [unitChar_toNat]

theorem readUnicodeEscape_pair (hc : 0x10000 ≤ c.toNat) (hrest : rest ≠ []) :
    readUnicodeEscape (Text.hexPadded 4 (0xd800 + (c.toNat - 0x10000) / 0x400) ++
      escapeUnit (0xdc00 + (c.toNat - 0x10000) % 0x400) ++ rest) = .ok (c, rest) := by
  have hlt : c.toNat < 0x110000 := by
    have hvalid := toNat_valid c
    omega
  have hhigh : 0xd800 + (c.toNat - 0x10000) / 0x400 < 0xdc00 := by omega
  have hlow : 0xdc00 + (c.toNat - 0x10000) % 0x400 < 0xe000 := by omega
  have hwhole : 0x10000 + (0xd800 + (c.toNat - 0x10000) / 0x400 - 0xd800) * 0x400 +
      (0xdc00 + (c.toNat - 0x10000) % 0x400 - 0xdc00) = c.toNat := by omega
  rw [List.append_assoc, readUnicodeEscape, drop_hexPadded, escapeUnit, if_neg (by simp),
    hexUnit?_hexPadded (by omega) _]
  simp only [List.cons_append]
  rw [if_pos ⟨by omega, hhigh, by simpa [drop_hexPadded] using hrest⟩,
    hexUnit?_hexPadded (by omega) rest]
  dsimp only
  rw [if_pos ⟨by omega, hlow⟩, hwhole, Char.ofNat_toNat, drop_hexPadded]

end Escapes

section Strings

theorem readStringFrom_escape (hesc : readUnicodeEscape cs = .ok (c, rest)) :
    readStringFrom start (fuel + 1) done ('\\' :: 'u' :: cs) =
      readStringFrom start fuel (c :: done) rest := by
  rw [readStringFrom, hesc]

theorem readStringFrom_visible (hquote : c ≠ '"') (hslash : c ≠ '\\') (hc : 32 ≤ c.toNat) :
    readStringFrom start (fuel + 1) done (c :: rest) =
      readStringFrom start fuel (c :: done) rest := by
  rw [readStringFrom]
  · exact if_neg (Nat.not_lt.2 hc)
  all_goals simp [hquote, hslash]

theorem readStringFrom_encodeChar (hrest : rest ≠ []) :
    readStringFrom start (fuel + 1) done (encodeChar c ++ rest) =
      readStringFrom start fuel (c :: done) rest := by
  unfold encodeChar
  split
  case h_8 hquote hslash _ _ _ _ _ =>
    split
    · next hvisible => exact readStringFrom_visible hquote hslash hvisible.1
    · rw [escapeChar]
      split
      · next hc => exact readStringFrom_escape (readUnicodeEscape_unit hc hrest)
      · next hc => exact readStringFrom_escape (readUnicodeEscape_pair (Nat.not_lt.1 hc) hrest)
  all_goals rfl

theorem readStringFrom_encoded (hfuel : cs.length < fuel) :
    readStringFrom start fuel done (cs.flatMap encodeChar ++ '"' :: rest) =
      .ok (String.ofList (done.reverse ++ cs), rest) := by
  induction cs generalizing fuel done with
  | nil =>
    obtain ⟨fuel, rfl⟩ := Nat.exists_eq_succ_of_ne_zero (Nat.ne_of_gt hfuel)
    rw [List.append_nil]
    rfl
  | cons c cs ih =>
    obtain ⟨fuel, rfl⟩ := Nat.exists_eq_succ_of_ne_zero (Nat.ne_of_gt (Nat.zero_lt_of_lt hfuel))
    rw [List.flatMap_cons, List.append_assoc, readStringFrom_encodeChar (by simp),
      ih (Nat.lt_of_succ_lt_succ hfuel), List.reverse_cons, List.append_assoc]
    rfl

theorem readString_encodeString {s : String} (hfuel : s.toList.length < fuel) :
    readString fuel (s.toList.flatMap encodeChar ++ '"' :: rest) = .ok (s, rest) := by
  rw [readString, readStringFrom_encoded hfuel, List.reverse_nil, List.nil_append,
    String.ofList_toList]

theorem length_le_flatMap_encodeChar (cs : List Char) :
    cs.length ≤ (cs.flatMap encodeChar).length := by
  induction cs with
  | nil => exact Nat.le_refl 0
  | cons c cs ih =>
    have hne : 0 < (encodeChar c).length := by
      unfold encodeChar
      split
      case h_8 =>
        split
        · exact Nat.zero_lt_one
        · rw [escapeChar]
          split <;> simp [escapeUnit]
      all_goals exact Nat.zero_lt_succ _
    rw [List.flatMap_cons, List.length_append, List.length_cons]
    omega

end Strings

section Integers

def Seam (rest : List Char) : Prop :=
  ∀ c ∈ rest.head?, c = ',' ∨ c = '\n'

theorem Seam.head (hs : Seam (c :: rest)) : c = ',' ∨ c = '\n' :=
  hs c rfl

theorem Seam.takeWhile_isDigit (hs : Seam rest) :
    rest.takeWhile isDigit = [] ∧ rest.dropWhile isDigit = rest := by
  cases rest with
  | nil => exact ⟨rfl, rfl⟩
  | cons c rest =>
    obtain rfl | rfl := hs.head
    · exact ⟨rfl, rfl⟩
    · exact ⟨rfl, rfl⟩

theorem Seam.takeFraction (hs : Seam rest) : takeFraction rest = ([], rest) := by
  cases rest with
  | nil => rfl
  | cons c rest =>
    obtain rfl | rfl := hs.head
    · rfl
    · rfl

theorem Seam.takeExponent (hs : Seam rest) : takeExponent rest = ([], rest) := by
  cases rest with
  | nil => rfl
  | cons c rest =>
    obtain rfl | rfl := hs.head
    · rfl
    · rfl

theorem digitValue?_of_isDigit (hc : c.isDigit = true) :
    Text.digitValue? c = some (c.toNat - '0'.toNat) := by
  rw [Char.isDigit, Bool.and_eq_true, decide_eq_true_eq, decide_eq_true_eq] at hc
  have hlow : 48 ≤ c.toNat := hc.1
  have hhigh : c.toNat ≤ 57 := hc.2
  rw [Text.digitValue?, Text.zeros, List.find?_cons_of_pos (by simp [hlow, hhigh])]
  rfl

theorem natOfDigits_toDigits (n : Nat) : Number.natOfDigits (Nat.toDigits 10 n) = n := by
  have hfold : ∀ (ds : List Char) (m : Nat), (∀ d ∈ ds, d.isDigit = true) →
      ds.foldl (fun n c => n * 10 + (Text.digitValue? c).getD 0) m = Nat.ofDigitChars 10 ds m := by
    intro ds
    induction ds with
    | nil => exact fun m _ => rfl
    | cons d ds ih =>
      intro m hds
      rw [List.forall_mem_cons] at hds
      rw [List.foldl_cons, ih _ hds.2, digitValue?_of_isDigit hds.1, Option.getD_some,
        Nat.ofDigitChars_cons, Nat.mul_comm]
  have hdigits : ∀ d ∈ Nat.toDigits 10 n, d.isDigit = true :=
    fun d hd => Nat.isDigit_of_mem_toDigits (by decide) (by decide) hd
  rw [Number.natOfDigits, hfold _ 0 hdigits]
  exact Nat.ofDigitChars_toDigits (by decide) (by decide)

theorem exists_toDigits_cons (hn : n ≠ 0) : ∃ d ds, Nat.toDigits 10 n = d :: ds ∧ d ≠ '0' := by
  induction n using Nat.strongRecOn with
  | ind n ih =>
    by_cases hlt : n < 10
    · refine ⟨n.digitChar, [], Nat.toDigits_of_lt_base hlt, ?_⟩
      have hsmall : ∀ m < 10, m ≠ 0 → m.digitChar ≠ '0' := by decide
      exact hsmall n hlt hn
    · obtain ⟨d, ds, hds, hd⟩ := ih (n / 10) (by omega) (by omega)
      rw [Nat.toDigits_of_base_le (by decide) (Nat.not_lt.1 hlt), hds]
      exact ⟨d, _, rfl, hd⟩

theorem takeWhole_toDigits (n : Nat) (hs : Seam rest) :
    takeWhole (Nat.toDigits 10 n ++ rest) = (Nat.toDigits 10 n, rest) := by
  have hall : ∀ d ∈ Nat.toDigits 10 n, isDigit d = true :=
    fun d hd => Nat.isDigit_of_mem_toDigits (by decide) (by decide) hd
  by_cases hn : n = 0
  · rw [hn]
    rfl
  · obtain ⟨d, ds, hds, hd⟩ := exists_toDigits_cons hn
    rw [hds] at hall ⊢
    rw [List.cons_append, takeWhole, ← List.cons_append, List.takeWhile_append_of_pos hall,
      List.dropWhile_append_of_pos hall, hs.takeWhile_isDigit.1, hs.takeWhile_isDigit.2,
      List.append_nil]
    simpa using hd

theorem length_toDigits_le {k : Nat} (hk : 0 < k) (hn : n < tenTo k) :
    (Nat.toDigits 10 n).length ≤ k :=
  (Nat.length_toDigits_le_iff (by decide) hk).2 hn

theorem integer_toDigits (negative : Bool) (hn : n < tenTo Fault.digitLimit) :
    integer negative (Nat.toDigits 10 n) =
      .ok (.int (if negative then -(n : Int) else n)) := by
  rw [integer, if_neg (Nat.not_lt.2 (length_toDigits_le (by decide) hn)), natOfDigits_toDigits]

theorem readNumber_toDigits (negative : Bool) {s : List Char} (hn : n < tenTo Fault.digitLimit)
    (hrest : Seam rest) (hsign : decide (s.head? = some '-') = negative)
    (hbody : (if s.head? = some '-' then s.tail else s) = Nat.toDigits 10 n ++ rest) :
    readNumber s = .ok (.int (if negative then -(n : Int) else n), rest) := by
  have hne : (Nat.toDigits 10 n).isEmpty = false := by simp
  simp only [readNumber, hsign, hbody, takeWhole_toDigits n hrest, hne, hrest.takeFraction,
    hrest.takeExponent, List.isEmpty_nil, Bool.and_self, integer_toDigits negative hn]
  rfl

theorem exists_digit_cons (n : Nat) : ∃ d ds, Nat.toDigits 10 n = d :: ds ∧ d.isDigit = true := by
  obtain ⟨d, ds, hds⟩ := List.exists_cons_of_ne_nil (Nat.toDigits_ne_nil (n := n) (b := 10))
  refine ⟨d, ds, hds, Nat.isDigit_of_mem_toDigits (by decide) (by decide) (b := 10) (n := n) ?_⟩
  rw [hds]
  exact List.mem_cons_self

theorem ne_of_isDigit {d e : Char} (hd : d.isDigit = true) (he : e.isDigit = false) : d ≠ e := by
  rintro rfl
  rw [hd] at he
  cases he

theorem readWord_of_isDigit {d : Char} (hd : d.isDigit = true) (cs : List Char) :
    readWord (d :: cs) = readNumber (d :: cs) ∧
      readWord ('-' :: d :: cs) = readNumber ('-' :: d :: cs) := by
  have hn : 'n' ≠ d := (ne_of_isDigit hd rfl).symm
  have ht : 't' ≠ d := (ne_of_isDigit hd rfl).symm
  have hf : 'f' ≠ d := (ne_of_isDigit hd rfl).symm
  have hN : 'N' ≠ d := (ne_of_isDigit hd rfl).symm
  have hI : 'I' ≠ d := (ne_of_isDigit hd rfl).symm
  have hminus : '-' ≠ d := (ne_of_isDigit hd rfl).symm
  constructor
  · simp [readWord, words, hn, ht, hf, hN, hI, hminus]
  · simp [readWord, words, hI]

theorem readWord_encodeInt {i : Int} (hi : i.natAbs < tenTo Fault.digitLimit)
    (hrest : Seam rest) : readWord (encodeInt i ++ rest) = .ok (.int i, rest) := by
  obtain ⟨d, ds, hds, hd⟩ := exists_digit_cons i.natAbs
  rw [encodeInt]
  by_cases hneg : i < 0
  · have hvalue : -(i.natAbs : Int) = i := by omega
    rw [if_pos hneg, List.append_assoc, hds]
    refine (readWord_of_isDigit hd _).2.trans ?_
    rw [readNumber_toDigits true hi hrest rfl (by rw [hds]; rfl),
      if_pos rfl, hvalue]
  · have hvalue : (i.natAbs : Int) = i := by omega
    have hminus : d ≠ '-' := ne_of_isDigit hd rfl
    rw [if_neg hneg, List.nil_append, hds]
    refine (readWord_of_isDigit hd _).1.trans ?_
    rw [readNumber_toDigits false hi hrest (by simp [hminus])
        (by simp [hds, hminus]),
      if_neg Bool.false_ne_true, hvalue]

end Integers

end Promptbook.Json

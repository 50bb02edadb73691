import Promptbook.Text.Basic

namespace Promptbook

/-- A piece of a text: a character that stands for itself, or a placeholder with the path inside
its braces. -/
inductive Piece
  | letter (c : Char)
  | slot (path : List Char)
  deriving DecidableEq, Repr

namespace Piece

def source : Piece → List Char
  | letter c => [c]
  | slot path => '$' :: '{' :: path ++ ['}']

def path? : Piece → Option String
  | letter _ => none
  | slot path => some (String.ofList (Text.trimBlanks path))

/-- The path before the first closing brace, and the text after that brace. -/
def takePath? (s : List Char) : Option (List Char × List Char) :=
  match s.takeWhile (· ≠ '}'), s.dropWhile (· ≠ '}') with
  | c :: path, _ :: rest => some (c :: path, rest)
  | _, _ => none

theorem takePath?_eq_append {s path rest : List Char} (h : takePath? s = some (path, rest)) :
    s = path ++ '}' :: rest := by
  unfold takePath? at h
  split at h
  · rename_i c p b r hp hr
    cases h
    have hb : b = '}' := by
      have := List.head?_dropWhile_not (p := fun c => decide (c ≠ '}')) (l := s)
      rw [hr] at this
      simpa using this
    rw [← hp, ← hb, ← hr]
    subst hb
    exact List.takeWhile_append_dropWhile.symm
  · cases h

theorem length_takePath? {s path rest : List Char} (h : takePath? s = some (path, rest)) :
    rest.length < s.length := by
  have := congrArg List.length (takePath?_eq_append h)
  simp at this
  omega

def ofChars : List Char → List Piece
  | [] => []
  | c :: s =>
    if c = '$' ∧ s.head? = some '{' then
      match _h : takePath? s.tail with
      | some (path, rest) => slot path :: ofChars rest
      | none => letter c :: ofChars s
    else letter c :: ofChars s
  termination_by s => s.length
  decreasing_by
    · have h₁ := length_takePath? _h
      have h₂ : s.tail.length ≤ s.length := by simp
      simp only [List.length_cons]
      omega
    · simp
    · simp

theorem flatMap_source_ofChars (s : List Char) : (ofChars s).flatMap source = s := by
  fun_induction ofChars s with
  | case1 => rfl
  | case2 c s hc path rest h ih =>
    obtain ⟨rfl, hs⟩ := hc
    cases s with
    | nil => simp at hs
    | cons d s =>
      simp only [List.head?_cons, Option.some.injEq] at hs
      subst hs
      simp only [List.flatMap_cons, ih, source]
      simpa using (takePath?_eq_append h).symm
  | case3 c s _ _ ih => simp [source, ih]
  | case4 c s _ ih => simp [source, ih]

end Piece

/-- The paths of the placeholders of a text, in order and with repetitions. -/
def placeholderPaths (s : String) : List String :=
  (Piece.ofChars s.toList).filterMap Piece.path?

end Promptbook

import Mathlib.Data.List.Basic
import Promptbook.Proofs.Placeholder

namespace Promptbook

theorem placeholderPaths_append {s t : String} (hs : Text.NoneOpen s.toList)
    (hb : s.toList.getLast? = some '$' → t.toList.head? ≠ some '{') :
    placeholderPaths (s ++ t) = placeholderPaths s ++ placeholderPaths t := by
  rw [placeholderPaths, String.toList_append, Piece.ofChars_append hs hb, List.filterMap_append]
  rfl

namespace Heap

variable {h : Heap} {values v : Value} {s t path : String}

theorem substitute_append (h : Heap) (values : Value) (hs : Text.NoneOpen s.toList)
    (hb : s.toList.getLast? = some '$' → t.toList.head? ≠ some '{') :
    h.substitute values (s ++ t) = (do
      let front ← h.substitute values s
      let back ← h.substitute values t
      return front ++ back) := by
  rw [substitute, String.toList_append, Piece.ofChars_append hs hb, fillPieces_append]
  simp only [substitute]
  cases h.fillPieces values (Piece.ofChars s.toList) with
  | error e => rfl
  | ok front =>
    cases h.fillPieces values (Piece.ofChars t.toList) with
    | error e => rfl
    | ok back => exact congrArg Except.ok String.ofList_append

/-- Two texts are replaced and searched for placeholders apart, and what comes of both is put
together. -/
theorem substitute_and_paths_append (h : Heap) (values : Value) (hs : Text.NoneOpen s.toList)
    (hb : ¬ (s.toList.getLast? = some '$' ∧ t.toList.head? = some '{')) :
    (h.substitute values (s ++ t) = do
      let front ← h.substitute values s
      let back ← h.substitute values t
      return front ++ back) ∧
    ((∀ path ∈ placeholderPaths s ++ placeholderPaths t, h.Renders values path) →
      ∃ front back, h.substitute values s = .ok front ∧ h.substitute values t = .ok back ∧
        h.substitute values (s ++ t) = .ok (front ++ back)) ∧
    placeholderPaths (s ++ t) = placeholderPaths s ++ placeholderPaths t := by
  have happend := h.substitute_append values hs (not_and.1 hb)
  refine ⟨happend, fun hr => ?_, placeholderPaths_append hs (not_and.1 hb)⟩
  rw [List.forall_mem_append] at hr
  obtain ⟨front, hfront⟩ := substitute_total hr.1
  obtain ⟨back, hback⟩ := substitute_total hr.2
  refine ⟨front, back, hfront, hback, ?_⟩
  rw [happend, hfront, hback]
  rfl

def paired : Heap where
  nodes := #[.dict [(.text "x", .text "one"), (.text "z", .null)]]

theorem substitute_and_paths_append_stray :
    Text.NoneOpen "$5 for ${} \x7b${ x }$".toList ∧
      ¬ ("$5 for ${} \x7b${ x }$".toList.getLast? = some '$' ∧
        "${y}, $\x7bz".toList.head? = some '{') ∧
      paired.substitute (.ref ⟨0⟩) ("$5 for ${} \x7b${ x }$" ++ "${y}, $\x7bz") =
        .ok ("$5 for ${} \x7bone$" ++ "${y}, $\x7bz") ∧
      placeholderPaths ("$5 for ${} \x7b${ x }$" ++ "${y}, $\x7bz") = ["x"] ++ ["y"] := by
  have hs : Text.NoneOpen "$5 for ${} \x7b${ x }$".toList := by decide
  have hb : ¬ ("$5 for ${} \x7b${ x }$".toList.getLast? = some '$' ∧
      "${y}, $\x7bz".toList.head? = some '{') := by decide
  have hfront : paired.substitute (.ref ⟨0⟩) "$5 for ${} \x7b${ x }$" =
      .ok "$5 for ${} \x7bone$" := by
    decide +kernel
  have hback : paired.substitute (.ref ⟨0⟩) "${y}, $\x7bz" = .ok "${y}, $\x7bz" := by
    decide +kernel
  obtain ⟨happend, -, hpaths⟩ := substitute_and_paths_append paired (.ref ⟨0⟩) hs hb
  refine ⟨hs, hb, ?_, ?_⟩
  · rw [happend, hfront, hback]
    rfl
  · rw [hpaths]
    decide +kernel

end Heap

namespace Piece

variable {a b u path : List Char}

theorem ofChars_append_dollar (ha : Text.NoneOpen a) (u : List Char) :
    ofChars (a ++ '$' :: u) = ofChars a ++ ofChars ('$' :: u) :=
  ofChars_append ha fun _ hhead => by cases hhead

theorem ofChars_open (ha : Text.NoneOpen a) (hb : '}' ∉ b) :
    ofChars (a ++ '$' :: '{' :: b) = ofChars a ++ ('$' :: '{' :: b).map letter := by
  rw [ofChars_append_dollar ha, ofChars_of_no_brace (s := '$' :: '{' :: b) (by simpa using hb)]

/-- A placeholder left open takes one that is put behind it into its own path. -/
theorem ofChars_open_slot (ha : Text.NoneOpen a) (hb : '}' ∉ b) (hp : '}' ∉ path) :
    ofChars (a ++ '$' :: '{' :: b ++ (slot path).source) =
      ofChars a ++ [slot (b ++ '$' :: '{' :: path)] := by
  have hsource : a ++ '$' :: '{' :: b ++ (slot path).source =
      a ++ (slot (b ++ '$' :: '{' :: path)).source := by
    simp [source]
  rw [hsource, ← ofChars_source (by simp) (by simp [hb, hp])]
  exact ofChars_append_dollar ha _

end Piece

def token (path : String) : String :=
  "$\x7b" ++ path ++ "\x7d"

theorem toList_token (path : String) : (token path).toList = (Piece.slot path.toList).source := by
  simp [token, Piece.source]

/-- Each placeholder that is put behind a text is replaced, whatever follows it, if its path is
plain and leads to a value. -/
def ReplacedBehind (s : String) : Prop :=
  ∀ (h : Heap) (values : Value) (path t : String) (v : Value), Text.Plain path.toList →
    h.lookup (Text.trim path) values = .ok (some v) →
    h.substitute values (s ++ token path ++ t) = do
      let front ← h.substitute values s
      let middle ← h.render v
      let back ← h.substitute values t
      return front ++ middle ++ back

variable {s path : String}

theorem Heap.substitute_token {h : Heap} {values v : Value} (hp : Text.Plain path.toList)
    (hv : h.lookup (Text.trim path) values = .ok (some v)) :
    h.substitute values (token path) = h.render v := by
  have hpath : (Piece.slot path.toList).path? = some (Text.trim path) := rfl
  rw [substitute, toList_token, Piece.ofChars_source hp.1 hp.no_brace, fillPieces_singleton,
    fillPiece, hpath]
  simp only [hv, ok_bind]
  cases h.render v with
  | error e => rfl
  | ok u => exact congrArg Except.ok (by simp)

theorem replacedBehind_of_noneOpen (hs : Text.NoneOpen s.toList) : ReplacedBehind s := by
  intro h values path t v hp hv
  have hclosed : Text.NoneOpen (token path).toList := by
    rw [toList_token]
    exact Text.noneOpen_append_brace ('$' :: '{' :: path.toList)
  have hfirst : (token path ++ t).toList.head? ≠ some '{' := by
    simp [token]
  have hlast : (token path).toList.getLast? ≠ some '$' := by
    rw [toList_token]
    simp [Piece.source, List.getLast?_cons]
  rw [String.append_assoc, h.substitute_append values hs fun _ => hfirst,
    h.substitute_append values hclosed fun hdollar => absurd hdollar hlast,
    Heap.substitute_token hp hv]
  simp only [bind_assoc, pure_bind, String.append_assoc]

namespace Heap

def emptied : Heap where
  nodes := #[.dict [(.text "x", .text "")]]

theorem fillPiece_emptied (p : Piece) :
    ∃ r, emptied.fillPiece (.ref ⟨0⟩) p = .ok r ∧ (r = p.source ∨ r = []) := by
  cases hp : p.path? with
  | none => exact ⟨_, by simp only [fillPiece, hp], .inl rfl⟩
  | some path =>
    have hv : emptied.mapping? (.ref ⟨0⟩) = some (.entries [(.text "x", .text "")]) := rfl
    obtain ⟨o, ho, hmem⟩ := lookup_among_texts hv (by decide) path
    cases o with
    | none => exact ⟨p.source, by simp only [fillPiece, hp, ho, ok_bind]; rfl, .inl rfl⟩
    | some v =>
      obtain ⟨e, he, rfl⟩ := hmem v rfl
      obtain rfl := List.mem_singleton.1 he
      exact ⟨[], by simp only [fillPiece, hp, ho, ok_bind]; rfl, .inr rfl⟩

end Heap

theorem noneOpen_of_replacedBehind (hr : ReplacedBehind s) : Text.NoneOpen s.toList := by
  refine Decidable.byContradiction fun hopen => ?_
  obtain ⟨a, b, hs, ha, hb⟩ := Text.exists_open hopen
  have hreturns : ∀ p ∈ Piece.ofChars a, ∃ r, Heap.emptied.fillPiece (.ref ⟨0⟩) p = .ok r :=
    fun p _ => (Heap.fillPiece_emptied p).imp fun _ hr => hr.1
  obtain ⟨front, hfront⟩ := Heap.fillPieces_total hreturns
  -- the opening and the placeholder make one placeholder, which is kept or replaced as a whole
  obtain ⟨r, hlost, hr'⟩ := Heap.fillPiece_emptied (.slot (b ++ ['$', '{', 'x']))
  have hleft : Heap.emptied.substitute (.ref ⟨0⟩) s =
      .ok (String.ofList (front ++ '$' :: '{' :: b)) := by
    rw [Heap.substitute, hs, Piece.ofChars_open ha hb, Heap.fillPieces_append, hfront,
      Heap.fillPieces_letters]
    rfl
  have hpath : "x".toList = ['x'] := rfl
  have hright : Heap.emptied.substitute (.ref ⟨0⟩) (s ++ token "x" ++ "") =
      .ok (String.ofList (front ++ r)) := by
    rw [String.append_empty, Heap.substitute, String.toList_append, hs, toList_token,
      hpath, Piece.ofChars_open_slot ha hb (by decide), Heap.fillPieces_append, hfront,
      Heap.fillPieces_singleton, hlost]
    rfl
  have hlaw := hr Heap.emptied (.ref ⟨0⟩) "x" "" (.text "") (by decide) rfl
  have hrender : Heap.emptied.render (.text "") = .ok "" := rfl
  have hnothing : Heap.emptied.substitute (.ref ⟨0⟩) "" = .ok "" :=
    Heap.substitute_of_no_paths (by decide +kernel)
  rw [hright, hleft, hrender, hnothing] at hlaw
  have hchars : r = '$' :: '{' :: b := by
    simpa using congrArg String.toList (Except.ok.inj hlaw)
  rcases hr' with rfl | rfl
  · simpa [Piece.source] using congrArg List.length hchars
  · cases hchars

/-- Every placeholder behind a text is replaced exactly if the text leaves none open. -/
theorem replacedBehind_iff : ReplacedBehind s ↔ Text.NoneOpen s.toList :=
  ⟨noneOpen_of_replacedBehind, replacedBehind_of_noneOpen⟩

/-- Behind a lone opening a placeholder with a value is kept. -/
theorem not_replacedBehind_opening :
    Heap.paired.lookup "x" (.ref ⟨0⟩) = .ok (some (.text "one")) ∧
      Heap.paired.substitute (.ref ⟨0⟩) "$\x7b" = .ok "$\x7b" ∧
      Heap.paired.substitute (.ref ⟨0⟩) ("$\x7b" ++ token "x" ++ "") = .ok "$\x7b${x}" ∧
      ¬ ReplacedBehind "$\x7b" := by
  have hfront : Heap.paired.substitute (.ref ⟨0⟩) "$\x7b" = .ok "$\x7b" := by decide +kernel
  have hkept : Heap.paired.substitute (.ref ⟨0⟩) ("$\x7b" ++ token "x" ++ "") =
      .ok "$\x7b${x}" := by decide +kernel
  refine ⟨rfl, hfront, hkept, fun hr => ?_⟩
  exact absurd (noneOpen_of_replacedBehind hr) (by decide)

end Promptbook

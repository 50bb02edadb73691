import Promptbook.Proofs.Json.Text

namespace Promptbook.Json

variable {n fuel level close depth : Nat} {i : Int} {name : String} {rest : List Char} {j : Json}
  {js : List Json} {ms : List (String × Json)}

/-- The document is nested at most so deep, its integers can be written, and it has no
floating-point number. -/
def Exact (n : Nat) (j : Json) : Prop :=
  match j with
  | .null | .bool _ | .text _ => True
  | .int i => i.natAbs < tenTo Fault.digitLimit
  | .real _ => False
  | .list js =>
    match n with
    | 0 => False
    | n + 1 => ∀ j ∈ js, Exact n j
  | .object ms =>
    match n with
    | 0 => False
    | n + 1 => ∀ m ∈ ms, Exact n m.2

theorem exact_int : Exact n (.int i) ↔ i.natAbs < tenTo Fault.digitLimit := by
  rw [Exact]

theorem not_exact_real (x : Binary64) : ¬ Exact n (.real x) := by
  rw [Exact]
  exact id

section Openings

def isOpening (c : Char) : Bool :=
  !isBlank c && c != ']' && c != '\ufeff'

theorem skipBlanks_cons {c : Char} (hc : isBlank c = false) :
    skipBlanks (c :: rest) = c :: rest := by
  rw [skipBlanks, List.dropWhile_cons_of_neg (by simp [hc])]

theorem isOpening_of_isDigit {c : Char} (hc : c.isDigit = true) : isOpening c = true := by
  have hblank : isBlank c = false := by
    simp [isBlank, ne_of_isDigit hc (e := ' ') rfl, ne_of_isDigit hc (e := '\t') rfl,
      ne_of_isDigit hc (e := '\n') rfl, ne_of_isDigit hc (e := '\r') rfl]
  simp [isOpening, hblank, ne_of_isDigit hc (e := ']') rfl, ne_of_isDigit hc (e := '\ufeff') rfl]

theorem encodeInt_opens (i : Int) : ∃ c cs, encodeInt i = c :: cs ∧ isOpening c = true := by
  obtain ⟨d, ds, hds, hd⟩ := exists_digit_cons i.natAbs
  rw [encodeInt, hds]
  split
  · exact ⟨'-', d :: ds, rfl, rfl⟩
  · exact ⟨d, ds, rfl, isOpening_of_isDigit hd⟩

theorem render_opens (hj : Exact n j) (level : Nat) :
    ∃ c cs, render level j = c :: cs ∧ isOpening c = true := by
  cases j with
  | null => exact ⟨'n', _, by rw [render], rfl⟩
  | bool b =>
    cases b with
    | true => exact ⟨'t', _, by rw [render], rfl⟩
    | false => exact ⟨'f', _, by rw [render], rfl⟩
  | int i =>
    rw [render]
    exact encodeInt_opens i
  | real x => exact (not_exact_real x hj).elim
  | text s => exact ⟨'"', _, by rw [render, encodeString]; rfl, rfl⟩
  | list js =>
    cases js with
    | nil => exact ⟨'[', _, by rw [render], rfl⟩
    | cons j js => exact ⟨'[', _, by rw [render]; rfl, rfl⟩
  | object ms =>
    cases ms with
    | nil => exact ⟨'{', _, by rw [render], rfl⟩
    | cons m ms => exact ⟨'{', _, by rw [render]; rfl, rfl⟩

theorem skipBlanks_newLine (level : Nat) (cs : List Char) :
    skipBlanks (newLine level ++ cs) = skipBlanks cs := by
  have hblank : ∀ c ∈ newLine level, isBlank c = true := by
    intro c hc
    rcases List.mem_cons.1 hc with rfl | hc
    · rfl
    · rw [List.eq_of_mem_replicate hc]
      rfl
  exact List.dropWhile_append_of_pos hblank

theorem skipBlanks_render (hj : Exact n j) (level : Nat) (cs : List Char) :
    skipBlanks (render level j ++ cs) = render level j ++ cs := by
  obtain ⟨c, ds, hds, hc⟩ := render_opens hj level
  simp only [isOpening, Bool.and_eq_true, Bool.not_eq_true'] at hc
  rw [hds]
  exact skipBlanks_cons hc.1.1

theorem seam_newLine (level : Nat) (cs : List Char) : Seam (newLine level ++ cs) := by
  intro c hc
  cases hc
  exact .inr rfl

theorem seam_comma (cs : List Char) : Seam (',' :: cs) := by
  intro c hc
  cases hc
  exact .inl rfl

end Openings

section Steps

variable {cs ds : List Char}

theorem readValue_items {c : Char} (hcs : skipBlanks cs = c :: ds) (hc : c ≠ ']') :
    readValue (fuel + 1) (n + 1) ('[' :: cs) = readItems fuel n [] (c :: ds) := by
  rw [readValue, hcs]
  split
  · next heq =>
    cases heq
    exact absurd rfl hc
  · rfl

theorem readValue_members (hcs : skipBlanks cs = '"' :: ds) :
    readValue (fuel + 1) (n + 1) ('{' :: cs) = readMembers fuel n [] ('"' :: ds) := by
  rw [readValue, hcs]
  rfl

end Steps

def ReadsBack (n : Nat) (j : Json) : Prop :=
  ∀ level fuel rest, 2 * (render level j).length ≤ fuel → Seam rest →
    readValue fuel n (render level j ++ rest) = .ok (j, rest)

section Containers

variable {done : List Json} {named : List (String × Json)} {after : List Char}

def afterItem (n fuel : Nat) (done : List Json) (cs : List Char) : Read Json :=
  match skipBlanks cs with
  | ']' :: rest => .ok (.list done.reverse, rest)
  | ',' :: rest => readItems fuel n done (skipBlanks rest)
  | rest => stopAt .expectingComma rest

theorem readItems_item (hj : ReadsBack n j) (hfuel : 2 * (render level j).length ≤ fuel)
    (hafter : Seam after) :
    readItems (fuel + 1) n done (render level j ++ after) =
      afterItem n fuel (j :: done) after := by
  rw [readItems, hj level fuel after hfuel hafter]
  rfl

theorem readItems_render (hexact : ∀ x ∈ j :: js, Exact n x) (hall : ∀ x ∈ j :: js, ReadsBack n x)
    (hfuel : 2 * (render level j ++ renderItems level js).length < fuel) :
    readItems fuel n done
        (render level j ++ (renderItems level js ++ (newLine close ++ ']' :: rest))) =
      .ok (.list (done.reverse ++ j :: js), rest) := by
  obtain ⟨fuel, rfl⟩ := Nat.exists_eq_add_one_of_ne_zero (Nat.ne_zero_of_lt hfuel)
  induction js generalizing j done fuel with
  | nil =>
    rw [renderItems, List.append_nil] at hfuel
    rw [renderItems, List.nil_append, readItems_item (hall j List.mem_cons_self)
      (Nat.le_of_lt_succ hfuel) (seam_newLine close _), afterItem, skipBlanks_newLine,
      skipBlanks_cons rfl, ← List.reverse_cons]
    rfl
  | cons j' js ih =>
    simp only [renderItems, List.length_append, List.length_cons] at hfuel
    obtain ⟨fuel, rfl⟩ : ∃ k, fuel = k + 1 := ⟨fuel - 1, by omega⟩
    obtain ⟨-, hexact⟩ := List.forall_mem_cons.1 hexact
    obtain ⟨hj, hall⟩ := List.forall_mem_cons.1 hall
    have hrest : readItems (fuel + 1) n (j :: done)
        (render level j' ++ (renderItems level js ++ (newLine close ++ ']' :: rest))) =
        .ok (.list ((j :: done).reverse ++ j' :: js), rest) :=
      ih hexact hall fuel (by simp only [List.length_append]; omega)
    have hlen : 2 * (render level j).length ≤ fuel + 1 := by omega
    have hsplit (after : List Char) : renderItems level (j' :: js) ++ after =
        ',' :: (newLine level ++ (render level j' ++ (renderItems level js ++ after))) := by
      simp only [renderItems, List.cons_append, List.append_assoc]
    rw [hsplit, readItems_item hj hlen (seam_comma _), afterItem, skipBlanks_cons rfl]
    rw [List.reverse_cons, List.append_assoc,
      ← skipBlanks_render (hexact j' List.mem_cons_self), ← skipBlanks_newLine level] at hrest
    exact hrest

theorem encodeString_append (s : String) (cs : List Char) :
    encodeString s ++ cs = '"' :: (s.toList.flatMap encodeChar ++ '"' :: cs) := by
  simp [encodeString]

theorem length_lt_encodeString (s : String) : s.toList.length + 1 < (encodeString s).length := by
  have hle := length_le_flatMap_encodeChar s.toList
  simp only [encodeString, List.length_cons, List.length_append, List.length_nil]
  omega

def afterMember (n fuel : Nat) (named : List (String × Json)) (cs : List Char) : Read Json :=
  match skipBlanks cs with
  | '}' :: rest => .ok (.object named.reverse, rest)
  | ',' :: rest => readMembers fuel n named (skipBlanks rest)
  | rest => stopAt .expectingComma rest

theorem readMembers_member (hexact : Exact n j) (hj : ReadsBack n j)
    (hfuel : 2 * (encodeString name ++ ':' :: ' ' :: render level j).length ≤ fuel)
    (hafter : Seam after) :
    readMembers (fuel + 1) n named
        (encodeString name ++ (':' :: ' ' :: (render level j ++ after))) =
      afterMember n fuel ((name, j) :: named) after := by
  have hlen := length_lt_encodeString name
  simp only [List.length_append, List.length_cons] at hfuel
  have hread : readValue fuel n (skipBlanks (' ' :: (render level j ++ after))) =
      .ok (j, after) := by
    have hblank : skipBlanks (' ' :: (render level j ++ after)) = render level j ++ after :=
      skipBlanks_render hexact level after
    rw [hblank]
    exact hj level fuel after (by omega) hafter
  rw [encodeString_append, readMembers, readString_encodeString (by omega)]
  dsimp only
  rw [skipBlanks_cons rfl]
  split
  · next heq =>
    cases heq
    rw [hread]
    rfl
  · next hno => exact absurd rfl (hno _)

theorem readMembers_render (hexact : ∀ m ∈ (name, j) :: ms, Exact n m.2)
    (hall : ∀ m ∈ (name, j) :: ms, ReadsBack n m.2)
    (hfuel : 2 * (encodeString name ++ ':' :: ' ' :: render level j ++
      renderMembers level ms).length < fuel) :
    readMembers fuel n named (encodeString name ++ (':' :: ' ' :: (render level j ++
        (renderMembers level ms ++ (newLine close ++ '}' :: rest))))) =
      .ok (.object (named.reverse ++ (name, j) :: ms), rest) := by
  obtain ⟨fuel, rfl⟩ := Nat.exists_eq_add_one_of_ne_zero (Nat.ne_zero_of_lt hfuel)
  induction ms generalizing name j named fuel with
  | nil =>
    rw [renderMembers, List.append_nil] at hfuel
    rw [renderMembers, List.nil_append, readMembers_member (hexact _ List.mem_cons_self)
      (hall _ List.mem_cons_self) (Nat.le_of_lt_succ hfuel) (seam_newLine close _),
      afterMember, skipBlanks_newLine, skipBlanks_cons rfl, ← List.reverse_cons]
    rfl
  | cons m ms ih =>
    obtain ⟨name', j'⟩ := m
    simp only [renderMembers, List.length_append, List.length_cons] at hfuel
    obtain ⟨fuel, rfl⟩ : ∃ k, fuel = k + 1 := ⟨fuel - 1, by omega⟩
    obtain ⟨hj, hexact⟩ := List.forall_mem_cons.1 hexact
    obtain ⟨hread, hall⟩ := List.forall_mem_cons.1 hall
    have hrest : readMembers (fuel + 1) n ((name, j) :: named) (encodeString name' ++ (':' :: ' ' ::
        (render level j' ++ (renderMembers level ms ++ (newLine close ++ '}' :: rest))))) =
        .ok (.object (((name, j) :: named).reverse ++ (name', j') :: ms), rest) :=
      ih hexact hall fuel (by simp only [List.length_append, List.length_cons]; omega)
    have hlen : 2 * (encodeString name ++ ':' :: ' ' :: render level j).length ≤ fuel + 1 := by
      simp only [List.length_append, List.length_cons]
      omega
    have hsplit (after : List Char) : renderMembers level ((name', j') :: ms) ++ after =
        ',' :: (newLine level ++ (encodeString name' ++ (':' :: ' ' :: (render level j' ++
          (renderMembers level ms ++ after))))) := by
      simp only [renderMembers, List.cons_append, List.append_assoc]
    have hname (cs : List Char) : skipBlanks (newLine level ++ (encodeString name' ++ cs)) =
        encodeString name' ++ cs := by
      rw [skipBlanks_newLine, encodeString_append, skipBlanks_cons rfl]
    rw [hsplit, readMembers_member hj hread hlen (seam_comma _), afterMember,
      skipBlanks_cons rfl]
    rw [List.reverse_cons, List.append_assoc, ← hname] at hrest
    exact hrest

end Containers

section Cases

theorem readsBack_null : ReadsBack n .null := by
  intro level fuel rest hfuel _
  rw [render] at hfuel ⊢
  obtain ⟨fuel, rfl⟩ : ∃ k, fuel = k + 1 := ⟨fuel - 1, by simp at hfuel; omega⟩
  rfl

theorem readsBack_bool (b : Bool) : ReadsBack n (.bool b) := by
  intro level fuel rest hfuel _
  cases b with
  | true =>
    rw [render] at hfuel ⊢
    obtain ⟨fuel, rfl⟩ : ∃ k, fuel = k + 1 := ⟨fuel - 1, by simp at hfuel; omega⟩
    rfl
  | false =>
    rw [render] at hfuel ⊢
    obtain ⟨fuel, rfl⟩ : ∃ k, fuel = k + 1 := ⟨fuel - 1, by simp at hfuel; omega⟩
    rfl

theorem readsBack_int (hi : i.natAbs < tenTo Fault.digitLimit) : ReadsBack n (.int i) := by
  intro level fuel rest hfuel hrest
  rw [render] at hfuel ⊢
  obtain ⟨d, ds, hds, hd⟩ := exists_digit_cons i.natAbs
  obtain ⟨fuel, rfl⟩ : ∃ k, fuel = k + 1 := ⟨fuel - 1, by
    rw [encodeInt, List.length_append, hds, List.length_cons] at hfuel
    omega⟩
  rw [← readWord_encodeInt hi hrest]
  have hquote : d ≠ '"' := ne_of_isDigit hd rfl
  have hlist : d ≠ '[' := ne_of_isDigit hd rfl
  have hobject : d ≠ '{' := ne_of_isDigit hd rfl
  rw [encodeInt, hds]
  split
  · rfl
  · rw [List.nil_append, List.cons_append, readValue.eq_def]
    split <;> simp_all

theorem readsBack_text (s : String) : ReadsBack n (.text s) := by
  intro level fuel rest hfuel _
  have hlen := length_lt_encodeString s
  rw [render] at hfuel ⊢
  obtain ⟨fuel, rfl⟩ : ∃ k, fuel = k + 1 := ⟨fuel - 1, by omega⟩
  rw [encodeString_append, readValue, readString_encodeString (by omega)]
  rfl

theorem readsBack_list (hexact : ∀ x ∈ js, Exact n x) (hall : ∀ x ∈ js, ReadsBack n x) :
    ReadsBack (n + 1) (.list js) := by
  intro level fuel rest hfuel _
  cases js with
  | nil =>
    rw [render] at hfuel ⊢
    obtain ⟨fuel, rfl⟩ : ∃ k, fuel = k + 1 := ⟨fuel - 1, by simp at hfuel; omega⟩
    rfl
  | cons j js =>
    rw [render] at hfuel ⊢
    simp only [List.length_append, List.length_cons] at hfuel
    obtain ⟨fuel, rfl⟩ : ∃ k, fuel = k + 1 := ⟨fuel - 1, by omega⟩
    simp only [List.cons_append, List.append_assoc, List.nil_append]
    obtain ⟨c, cs, hcs, hc⟩ := render_opens (hexact j List.mem_cons_self) (level + 1)
    simp only [isOpening, Bool.and_eq_true, Bool.not_eq_true', bne_iff_ne] at hc
    have hitems : readItems fuel n [] (render (level + 1) j ++ (renderItems (level + 1) js ++
        (newLine level ++ ']' :: rest))) = .ok (.list (j :: js), rest) :=
      readItems_render hexact hall (by simp only [List.length_append]; omega)
    rw [hcs] at hitems ⊢
    rw [readValue_items (by rw [skipBlanks_newLine, List.cons_append, skipBlanks_cons hc.1.1])
      hc.1.2]
    exact hitems

theorem readsBack_object (hexact : ∀ m ∈ ms, Exact n m.2) (hall : ∀ m ∈ ms, ReadsBack n m.2) :
    ReadsBack (n + 1) (.object ms) := by
  intro level fuel rest hfuel _
  cases ms with
  | nil =>
    rw [render] at hfuel ⊢
    obtain ⟨fuel, rfl⟩ : ∃ k, fuel = k + 1 := ⟨fuel - 1, by simp at hfuel; omega⟩
    rfl
  | cons m ms =>
    obtain ⟨name, j⟩ := m
    rw [render] at hfuel ⊢
    simp only [List.length_append, List.length_cons] at hfuel
    obtain ⟨fuel, rfl⟩ : ∃ k, fuel = k + 1 := ⟨fuel - 1, by omega⟩
    simp only [List.cons_append, List.append_assoc, List.nil_append]
    have hmembers : readMembers fuel n [] (encodeString name ++ (':' :: ' ' ::
        (render (level + 1) j ++ (renderMembers (level + 1) ms ++
          (newLine level ++ '}' :: rest))))) = .ok (.object ((name, j) :: ms), rest) :=
      readMembers_render hexact hall (by simp only [List.length_append, List.length_cons]; omega)
    rw [encodeString_append] at hmembers ⊢
    rw [readValue_members (by rw [skipBlanks_newLine, skipBlanks_cons rfl])]
    exact hmembers

end Cases

theorem readsBack_of_exact : ∀ {n : Nat} {j : Json}, Exact n j → ReadsBack n j
  | _, .null, _ => readsBack_null
  | _, .bool b, _ => readsBack_bool b
  | _, .int _, hj => readsBack_int (exact_int.1 hj)
  | _, .text s, _ => readsBack_text s
  | _, .real x, hj => (not_exact_real x hj).elim
  | 0, .list _, hj => hj.elim
  | 0, .object _, hj => hj.elim
  | _ + 1, .list _, hj => readsBack_list hj fun x hx => readsBack_of_exact (hj x hx)
  | _ + 1, .object _, hj => readsBack_object hj fun m hm => readsBack_of_exact (hj m hm)

/-- A document that is nested no deeper than the reader goes is read as it was printed. -/
theorem parse_print (hj : Exact depth j) : parse depth j.print.toList = .ok j := by
  obtain ⟨c, cs, hcs, hc⟩ := render_opens hj 0
  simp only [isOpening, Bool.and_eq_true, bne_iff_ne] at hc
  have hhead : (render 0 j).head? ≠ some '\ufeff' := by
    rw [hcs, List.head?_cons, ne_eq, Option.some.injEq]
    exact hc.2
  have hread := readsBack_of_exact hj 0 (2 * (render 0 j).length + 2) [] (by omega) nofun
  have hblank := skipBlanks_render hj 0 []
  rw [List.append_nil] at hread hblank
  rw [print, String.toList_ofList, parse, readDocument, if_neg hhead, hblank, hread]
  rfl

end Promptbook.Json

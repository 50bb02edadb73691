import Promptbook.Proofs.Outcome
import Promptbook.Render

namespace Promptbook

namespace Text

variable {c : Char} {s t : List Char}

/-- No placeholder of a text is left open: behind each opening there is a closing brace. -/
def NoneOpen (s : List Char) : Prop :=
  ∀ a b, s = a ++ '$' :: '{' :: b → '}' ∈ b

theorem noneOpen_nil : NoneOpen [] :=
  fun a b h => by simp at h

theorem noneOpen_cons : NoneOpen (c :: s) ↔
    (c = '$' ∧ s.head? = some '{' → '}' ∈ s.tail) ∧ NoneOpen s := by
  constructor
  · intro h
    refine ⟨?_, fun a b hs => h (c :: a) b (by rw [hs, List.cons_append])⟩
    rintro ⟨rfl, hhead⟩
    cases s with
    | nil => cases hhead
    | cons d b =>
      obtain rfl := Option.some.inj hhead
      exact h [] b rfl
  · rintro ⟨hc, hs⟩ a b hab
    cases a with
    | nil =>
      cases hab
      exact hc ⟨rfl, rfl⟩
    | cons d a =>
      obtain ⟨-, hab⟩ := List.cons.inj hab
      exact hs a b hab

instance decidableNoneOpen : DecidablePred NoneOpen
  | [] => .isTrue noneOpen_nil
  | _ :: s =>
    have := decidableNoneOpen s
    decidable_of_iff _ noneOpen_cons.symm

theorem NoneOpen.of_append (h : NoneOpen (s ++ t)) : NoneOpen t :=
  fun a b ht => h (s ++ a) b (by rw [ht, List.append_assoc])

theorem noneOpen_of_no_dollar (h : '$' ∉ s) : NoneOpen s :=
  fun a b hs => absurd (by simp [hs]) h

theorem noneOpen_append_brace (s : List Char) : NoneOpen (s ++ ['}']) := by
  intro a b h
  have hlast := congrArg List.getLast? h
  rw [List.getLast?_concat, List.getLast?_append, List.getLast?_cons, List.getLast?_cons] at hlast
  cases hb : b.getLast? with
  | none =>
    rw [hb] at hlast
    cases Option.some.inj hlast
  | some d =>
    rw [hb] at hlast
    obtain rfl := Option.some.inj hlast
    exact List.mem_of_getLast? hb

theorem exists_open (h : ¬ NoneOpen s) :
    ∃ a b, s = a ++ '$' :: '{' :: b ∧ NoneOpen a ∧ '}' ∉ b := by
  induction s with
  | nil => exact absurd noneOpen_nil h
  | cons c s ih =>
    by_cases hc : c = '$' ∧ s.head? = some '{' → '}' ∈ s.tail
    · obtain ⟨a, b, rfl, ha, hb⟩ := ih fun hs => h (noneOpen_cons.2 ⟨hc, hs⟩)
      refine ⟨c :: a, b, rfl, noneOpen_cons.2 ⟨?_, ha⟩, hb⟩
      rintro ⟨rfl, hhead⟩
      cases a with
      | nil => cases hhead
      | cons d a =>
        obtain rfl := Option.some.inj hhead
        have hmem : '}' ∈ a ++ '$' :: '{' :: b := hc ⟨rfl, rfl⟩
        simpa [hb] using hmem
    · obtain ⟨⟨rfl, hhead⟩, hnot⟩ := Classical.not_imp.1 hc
      cases s with
      | nil => cases hhead
      | cons d b =>
        obtain rfl := Option.some.inj hhead
        exact ⟨[], b, rfl, noneOpen_nil, hnot⟩

/-- A text that is not empty and holds no dollar sign and no brace. -/
def Plain (s : List Char) : Prop :=
  s ≠ [] ∧ ∀ c ∈ s, c ≠ '$' ∧ c ≠ '{' ∧ c ≠ '}'

instance (s : List Char) : Decidable (Plain s) :=
  have := List.decidableBAll (fun c => c ≠ '$' ∧ c ≠ '{' ∧ c ≠ '}') s
  inferInstanceAs (Decidable (_ ∧ _))

theorem Plain.no_dollar (h : Plain s) : '$' ∉ s :=
  fun hmem => (h.2 _ hmem).1 rfl

theorem Plain.no_brace (h : Plain s) : '}' ∉ s :=
  fun hmem => (h.2 _ hmem).2.2 rfl

end Text

namespace Piece

variable {c : Char} {s t path rest : List Char}

theorem takePath?_eq_some : takePath? s = some (path, rest) ↔
    path ≠ [] ∧ '}' ∉ path ∧ s = path ++ '}' :: rest := by
  constructor
  · intro h
    have happ := takePath?_eq_append h
    unfold takePath? at h
    split at h
    · rename_i d p b r hp hr
      cases h
      refine ⟨List.cons_ne_nil _ _, fun hmem => ?_, happ⟩
      rw [← hp] at hmem
      have := List.all_eq_true.1
        (List.all_takeWhile (p := fun c => decide (c ≠ '}')) (l := s)) _ hmem
      simp at this
    · cases h
  · rintro ⟨hne, hnot, rfl⟩
    have hall : ∀ d ∈ path, decide (d ≠ '}') = true := fun d hd => by
      rw [decide_eq_true_iff]
      intro heq
      subst heq
      exact hnot hd
    unfold takePath?
    rw [List.takeWhile_append_of_pos hall, List.dropWhile_append_of_pos hall]
    cases path with
    | nil => exact absurd rfl hne
    | cons d path => simp

theorem ofChars_letter (h : ¬ (c = '$' ∧ s.head? = some '{') ∨ takePath? s.tail = none) :
    ofChars (c :: s) = letter c :: ofChars s := by
  rw [ofChars]
  split
  · next hc =>
    split
    · next ht =>
      rw [h.resolve_left (fun hn => hn hc)] at ht
      cases ht
    · rfl
  · rfl

theorem ofChars_slot (hne : path ≠ []) (hnot : '}' ∉ path) :
    ofChars ((slot path).source ++ rest) = slot path :: ofChars rest := by
  have ht : takePath? (path ++ '}' :: rest) = some (path, rest) :=
    takePath?_eq_some.2 ⟨hne, hnot, rfl⟩
  have hs : (slot path).source ++ rest = '$' :: '{' :: (path ++ '}' :: rest) := by simp [source]
  rw [hs, ofChars, if_pos ⟨rfl, rfl⟩]
  split
  · next h =>
    rw [List.tail_cons, ht] at h
    cases h
    rfl
  · next h =>
    rw [List.tail_cons, ht] at h
    cases h

theorem mem_ofChars (h : slot path ∈ ofChars s) : path ≠ [] ∧ '}' ∉ path := by
  fun_induction ofChars s with
  | case1 => cases h
  | case2 c s hc path' rest ht ih =>
    rcases List.mem_cons.1 h with he | h
    · cases he
      obtain ⟨hne, hnot, -⟩ := takePath?_eq_some.1 ht
      exact ⟨hne, hnot⟩
    · exact ih h
  | case3 c s _ _ ih => exact ih ((List.mem_cons.1 h).resolve_left (fun he => by cases he))
  | case4 c s _ ih => exact ih ((List.mem_cons.1 h).resolve_left (fun he => by cases he))

theorem takePath?_brace (s : List Char) : takePath? ('}' :: s) = none := by
  simp [takePath?]

theorem head?_of_takePath?_eq_none (h : takePath? s = none) (hs : '}' ∈ s) :
    s.head? = some '}' := by
  obtain ⟨p, r, rfl, hp⟩ := List.eq_append_cons_of_mem hs
  cases p with
  | nil => rfl
  | cons d p => cases h.symm.trans (takePath?_eq_some.2 ⟨List.cons_ne_nil d p, hp, rfl⟩)

theorem eq_source_append (hc : c = '$' ∧ s.head? = some '{')
    (h : takePath? s.tail = some (path, rest)) : c :: s = (slot path).source ++ rest := by
  obtain ⟨rfl, hs⟩ := hc
  cases s with
  | nil => cases hs
  | cons d s =>
    obtain rfl := Option.some.inj hs
    obtain ⟨-, -, hs⟩ := takePath?_eq_some.1 h
    simpa [source] using hs

/-- A text with no placeholder left open is cut as if nothing stood behind it, unless an opening
lies across its end. -/
theorem ofChars_append (hs : Text.NoneOpen s)
    (hb : s.getLast? = some '$' → t.head? ≠ some '{') :
    ofChars (s ++ t) = ofChars s ++ ofChars t := by
  fun_induction ofChars s with
  | case1 => rfl
  | case2 c s hc path rest ht ih =>
    obtain ⟨hne, hnot, -⟩ := takePath?_eq_some.1 ht
    rw [eq_source_append hc ht] at hs hb ⊢
    rw [List.append_assoc, ofChars_slot hne hnot, List.cons_append, ih hs.of_append]
    exact fun hlast => hb (by rw [List.getLast?_append, hlast]; rfl)
  | case3 c s hc ht ih =>
    obtain ⟨hclose, hs⟩ := Text.noneOpen_cons.1 hs
    have hbrace := head?_of_takePath?_eq_none ht (hclose hc)
    have ht' : takePath? (s ++ t).tail = none := by
      cases s with
      | nil => cases hbrace
      | cons d s =>
        cases s with
        | nil => cases hbrace
        | cons e s => exact Option.some.inj hbrace ▸ takePath?_brace (s ++ t)
    rw [List.cons_append, ofChars_letter (.inr ht'), List.cons_append,
      ih hs fun hlast => hb (by rw [List.getLast?_cons, hlast]; rfl)]
  | case4 c s hc ih =>
    obtain ⟨-, hs⟩ := Text.noneOpen_cons.1 hs
    have hc' : ¬ (c = '$' ∧ (s ++ t).head? = some '{') := by
      rintro ⟨rfl, hhead⟩
      cases s with
      | nil => exact hb rfl hhead
      | cons d s => exact hc ⟨rfl, hhead⟩
    rw [List.cons_append, ofChars_letter (.inl hc'), List.cons_append,
      ih hs fun hlast => hb (by rw [List.getLast?_cons, hlast]; rfl)]

theorem ofChars_append_brace (A B : List Char) :
    ofChars (A ++ '}' :: B) = ofChars (A ++ ['}']) ++ ofChars B := by
  rw [← ofChars_append (Text.noneOpen_append_brace A) (by simp), List.append_assoc]
  rfl

theorem ofChars_source (hne : path ≠ []) (hnot : '}' ∉ path) :
    ofChars (slot path).source = [slot path] := by
  rw [← List.append_nil (slot path).source, ofChars_slot hne hnot, ofChars]

theorem ofChars_of_no_brace (h : '}' ∉ s) : ofChars s = s.map letter := by
  induction s with
  | nil => rw [ofChars, List.map_nil]
  | cons c s ih =>
    have hs : '}' ∉ s := fun hmem => h (List.mem_cons_of_mem c hmem)
    have hnone : takePath? s.tail = none := by
      cases ht : takePath? s.tail with
      | none => rfl
      | some r =>
        have htail := takePath?_eq_append ht
        exact absurd (List.mem_of_mem_tail (htail ▸ by simp)) hs
    rw [ofChars_letter (.inr hnone), ih hs, List.map_cons]

@[simp] theorem flatMap_source_letters (r : List Char) : (r.map letter).flatMap source = r := by
  induction r with
  | nil => rfl
  | cons c r ih => rw [List.map_cons, List.flatMap_cons, ih, source, List.singleton_append]

def rewrite (g : Piece → List Piece) (s : List Char) : List Char :=
  ((ofChars s).flatMap g).flatMap source

end Piece

namespace Heap

variable {h k : Heap} {values values' v : Value} {s r path : String} {p : Piece}
  {ps : List Piece}

theorem fillPieces_append {qs : List Piece} : h.fillPieces values (ps ++ qs) = (do
    let front ← h.fillPieces values ps
    let back ← h.fillPieces values qs
    return front ++ back) := by
  induction ps with
  | nil => simp only [List.nil_append, fillPieces, ok_bind, bind_pure]
  | cons p ps ih =>
    simp only [List.cons_append, fillPieces, ih, bind_assoc, pure_bind, List.append_assoc]

theorem fillPieces_singleton (p : Piece) : h.fillPieces values [p] = h.fillPiece values p := by
  simp only [fillPieces, ok_bind, List.append_nil, bind_pure]

theorem fillPieces_letters (cs : List Char) :
    h.fillPieces values (cs.map Piece.letter) = .ok cs := by
  induction cs with
  | nil => rfl
  | cons c cs ih =>
    rw [List.map_cons, fillPieces, ih]
    rfl

theorem fillPieces_eq_flatMap {f : Piece → List Char}
    (hp : ∀ p ∈ ps, h.fillPiece values p = .ok (f p)) :
    h.fillPieces values ps = .ok (ps.flatMap f) := by
  induction ps with
  | nil => rfl
  | cons p ps ih =>
    rw [List.forall_mem_cons] at hp
    simp only [fillPieces, hp.1, ih hp.2, ok_bind, List.flatMap_cons]
    rfl

theorem substitute_eq_self (hp : ∀ p ∈ Piece.ofChars s.toList,
    h.fillPiece values p = .ok p.source) : h.substitute values s = .ok s := by
  rw [substitute, fillPieces_eq_flatMap hp, Piece.flatMap_source_ofChars]
  simp [Except.map]

theorem substitute_of_no_paths (hs : placeholderPaths s = []) : h.substitute values s = .ok s := by
  rw [placeholderPaths, List.filterMap_eq_nil_iff] at hs
  exact substitute_eq_self fun p hp => by simp only [fillPiece, hs p hp]

theorem substitute_of_lookup_none (hv : ∀ path, h.lookup path values = .ok none) :
    h.substitute values s = .ok s := by
  apply substitute_eq_self
  intro p _
  cases hp : p.path? with
  | none => simp only [fillPiece, hp]
  | some path => simp only [fillPiece, hp, hv path, ok_bind, pure, Except.pure]

theorem fillPieces_total (hp : ∀ p ∈ ps, ∃ t, h.fillPiece values p = .ok t) :
    ∃ t, h.fillPieces values ps = .ok t := by
  induction ps with
  | nil => exact ⟨[], rfl⟩
  | cons p ps ih =>
    rw [List.forall_mem_cons] at hp
    obtain ⟨front, hfront⟩ := hp.1
    obtain ⟨back, hback⟩ := ih hp.2
    exact ⟨front ++ back, by simp only [fillPieces, hfront, hback, ok_bind]; rfl⟩

def written (h : Heap) (values : Value) (path : String) : Except Fault (Option String) := do
  match ← h.lookup path values with
  | none => return none
  | some v => return some (← h.render v)

theorem fillPiece_eq_written (hp : p.path? = some path) : h.fillPiece values p =
    (h.written values path).map fun o => (o.map String.toList).getD p.source := by
  simp only [fillPiece, written, hp]
  rcases h.lookup path values with e | _ | v
  · rfl
  · rfl
  · simp only [ok_bind]
    cases h.render v <;> rfl

theorem fillPieces_congr (hp : ∀ p ∈ ps, k.fillPiece values' p = h.fillPiece values p) :
    k.fillPieces values' ps = h.fillPieces values ps := by
  induction ps with
  | nil => rfl
  | cons p ps ih =>
    rw [List.forall_mem_cons] at hp
    rw [fillPieces, fillPieces, hp.1, ih hp.2]

theorem substitute_eq_of_written
    (hs : ∀ path ∈ placeholderPaths s, k.written values' path = h.written values path) :
    k.substitute values' s = h.substitute values s := by
  have hpieces : ∀ p ∈ Piece.ofChars s.toList, k.fillPiece values' p = h.fillPiece values p := by
    intro p hmem
    cases hp : p.path? with
    | none => simp only [fillPiece, hp]
    | some path =>
      rw [fillPiece_eq_written hp, fillPiece_eq_written hp,
        hs path (List.mem_filterMap.2 ⟨p, hmem, hp⟩)]
  rw [substitute, substitute, fillPieces_congr hpieces]

/-- A path leads nowhere or to a value that has a replacement text. -/
def Renders (h : Heap) (values : Value) (path : String) : Prop :=
  ∃ o, h.lookup path values = .ok o ∧ ∀ v, o = some v → ∃ t, h.render v = .ok t

def leads (h : Heap) (values : Value) (path : String) : Bool :=
  match h.lookup path values with
  | .ok (some _) => true
  | _ => false

def textAt? (h : Heap) (values : Value) (path : String) : Option String :=
  match h.lookup path values with
  | .ok (some v) => (h.render v).toOption
  | _ => none

/-- What becomes of a piece, cut into pieces again: letters where a text is written for it. -/
def settle (h : Heap) (values : Value) (p : Piece) : List Piece :=
  match p.path?.bind (h.textAt? values) with
  | some r => r.toList.map .letter
  | none => [p]

theorem leads_eq_true : h.leads values path = true ↔
    ∃ v, h.lookup path values = .ok (some v) := by
  rcases hl : h.lookup path values with e | _ | v <;> simp [leads, hl]

theorem textAt?_eq_some : h.textAt? values path = some r ↔
    ∃ v, h.lookup path values = .ok (some v) ∧ h.render v = .ok r := by
  rcases hl : h.lookup path values with e | _ | v
  · simp [textAt?, hl]
  · simp [textAt?, hl]
  · cases hr : h.render v <;> simp [textAt?, hl, hr, Except.toOption]

theorem settle_of_no_path (hp : p.path? = none) : h.settle values p = [p] := by
  simp only [settle, hp, Option.bind_none]

theorem settle_kept (hp : p.path? = some path) (hl : h.leads values path = false) :
    h.settle values p = [p] := by
  have htext : h.textAt? values path = none := by
    rw [Option.eq_none_iff_forall_ne_some]
    intro r hr
    obtain ⟨v, hv, -⟩ := textAt?_eq_some.1 hr
    exact Bool.false_ne_true (hl.symm.trans (leads_eq_true.2 ⟨v, hv⟩))
  simp only [settle, hp, Option.bind_some, htext]

theorem settle_written (hp : p.path? = some path) (hl : h.lookup path values = .ok (some v))
    (hr : h.render v = .ok r) : h.settle values p = r.toList.map .letter := by
  simp only [settle, hp, Option.bind_some, textAt?_eq_some.2 ⟨v, hl, hr⟩]

theorem fillPiece_eq_settle (hp : ∀ path, p.path? = some path → h.Renders values path) :
    h.fillPiece values p = .ok ((h.settle values p).flatMap Piece.source) := by
  cases hpath : p.path? with
  | none =>
    rw [settle_of_no_path hpath, List.flatMap_singleton]
    simp only [fillPiece, hpath]
  | some path =>
    obtain ⟨o, hl, hr⟩ := hp path hpath
    cases o with
    | none =>
      rw [settle_kept hpath (by rw [leads, hl]), List.flatMap_singleton]
      simp only [fillPiece, hpath, hl, ok_bind]
      rfl
    | some v =>
      obtain ⟨r, hr⟩ := hr v rfl
      rw [settle_written hpath hl hr, Piece.flatMap_source_letters]
      simp only [fillPiece, hpath, hl, hr, ok_bind]
      rfl

/-- A replacement that does not fail is the text written anew with what becomes of its pieces. -/
theorem substitute_eq_rewrite (hp : ∀ path ∈ placeholderPaths s, h.Renders values path) :
    h.substitute values s = .ok (String.ofList (Piece.rewrite (h.settle values) s.toList)) := by
  have hpieces : ∀ p ∈ Piece.ofChars s.toList,
      h.fillPiece values p = .ok ((h.settle values p).flatMap Piece.source) :=
    fun p hmem => fillPiece_eq_settle fun path hpath =>
      hp path (List.mem_filterMap.2 ⟨p, hmem, hpath⟩)
  rw [substitute, fillPieces_eq_flatMap hpieces, Piece.rewrite, List.flatMap_assoc]
  rfl

theorem substitute_total (hp : ∀ path ∈ placeholderPaths s, h.Renders values path) :
    ∃ t, h.substitute values s = .ok t :=
  ⟨_, substitute_eq_rewrite hp⟩

/-- What a piece becomes if its path is looked up in a given way. A placeholder whose path leads
nowhere stays as it is. -/
def fillBy (h : Heap) (find : String → Except Fault (Option Value)) (p : Piece) :
    Except Fault (List Char) :=
  match p.path? with
  | none => .ok p.source
  | some path => do
    match ← find path with
    | none => return p.source
    | some v => return (← h.render v).toList

/-- A text with every placeholder replaced whose path leads to a value when it is looked up in a
given way. -/
def substituteBy (h : Heap) (find : String → Except Fault (Option Value)) (t : String) :
    Except Fault String :=
  (eachOk (h.fillBy find) (Piece.ofChars t.toList)).map fun rs => String.ofList rs.flatten

theorem fillPiece_eq_fillBy (values : Value) (p : Piece) :
    h.fillPiece values p = h.fillBy (fun path => h.lookup path values) p := by
  unfold fillPiece fillBy
  cases p.path? with
  | none => rfl
  | some path =>
    rcases h.lookup path values with e | _ | v
    all_goals rfl

theorem fillPieces_flatMap (h : Heap) (values : Value) (g : Piece → List Piece)
    (ps : List Piece) :
    h.fillPieces values (ps.flatMap g) =
      (eachOk (fun p => h.fillPieces values (g p)) ps).map List.flatten := by
  induction ps with
  | nil => rfl
  | cons p ps ih =>
    rw [List.flatMap_cons, fillPieces_append, ih, eachOk]
    cases h.fillPieces values (g p) with
    | error e => rfl
    | ok front =>
      cases eachOk (fun p => h.fillPieces values (g p)) ps with
      | error e => rfl
      | ok rest => rfl

theorem substitute_eq_substituteBy (values : Value) (t : String) :
    h.substitute values t = h.substituteBy (fun path => h.lookup path values) t := by
  have hpieces := h.fillPieces_flatMap values (fun p => [p])
    (Piece.ofChars t.toList)
  simp only [fillPieces_singleton, List.flatMap_singleton', fillPiece_eq_fillBy] at hpieces
  rw [substitute, hpieces, substituteBy]
  cases eachOk (h.fillBy fun path => h.lookup path values) (Piece.ofChars t.toList)
  all_goals rfl

theorem found_of_substituteBy {find : String → Except Fault (Option Value)} {t : String}
    (ht : h.substituteBy find s = .ok t) : ∀ path ∈ placeholderPaths s, ∃ o, find path = .ok o := by
  intro path hpath
  obtain ⟨p, hmem, hp⟩ := List.mem_filterMap.1 hpath
  obtain ⟨rs, hrs, -⟩ := map_eq_ok.1 ht
  obtain ⟨r, hr⟩ := eachOk_of_mem hrs hmem
  simp only [fillBy, hp, bind_eq_ok] at hr
  exact hr.imp fun _ ho => ho.1

theorem lookup_of_substitute {t : String} (ht : h.substitute values s = .ok t) :
    ∀ path ∈ placeholderPaths s, ∃ o, h.lookup path values = .ok o :=
  found_of_substituteBy (h.substitute_eq_substituteBy values s ▸ ht)

theorem walk_cons {es : List (Value × Value)} {name : String} {names : List String}
    (hv : h.mapping? values = some (.entries es)) : h.walk (name :: names) values =
      match lookupText name es with
      | some w => h.walk names w
      | none => .ok none := by
  rw [walk, hv]
  cases hl : lookupText name es with
  | none => simp [Mapping.has, hl]
  | some w => simp [Mapping.has, Mapping.get, hl]

theorem lookup_among_texts {es : List (Value × Value)}
    (hv : h.mapping? values = some (.entries es)) (hes : ∀ e ∈ es, e.2.asText?.isSome)
    (path : String) :
    ∃ o, h.lookup path values = .ok o ∧ ∀ v, o = some v → ∃ e ∈ es, e.2 = v := by
  obtain ⟨name, names, hs⟩ := Text.exists_split_eq '.' path
  rw [lookup, hs]
  rw [walk_cons hv]
  cases hl : lookupText name es with
  | none => exact ⟨none, rfl, by rintro _ ⟨⟩⟩
  | some w =>
    obtain ⟨e, he, rfl⟩ := Option.map_eq_some_iff.1 hl
    have hmem := List.mem_of_find?_eq_some he
    cases names with
    | nil => exact ⟨some e.2, rfl, fun v hv => ⟨e, hmem, Option.some.inj hv⟩⟩
    | cons d ds =>
      have htext := hes e hmem
      have hm : h.mapping? e.2 = none := by
        cases hw : e.2 <;> first | rfl | (rw [hw] at htext; cases htext)
      exact ⟨none, by simp [walk, hm], by rintro _ ⟨⟩⟩

theorem lookup_of_texts {es : List (Value × Value)} (hv : h.mapping? values = some (.entries es))
    (hes : ∀ e ∈ es, e.2.asText?.isSome) (path : String) :
    ∃ o, h.lookup path values = .ok o ∧ ∀ v, o = some v → v.asText?.isSome := by
  obtain ⟨o, ho, hmem⟩ := lookup_among_texts hv hes path
  refine ⟨o, ho, fun v hv => ?_⟩
  obtain ⟨e, he, rfl⟩ := hmem v hv
  exact hes e he

theorem render_of_text {v : Value} (hv : v.asText?.isSome) : ∃ t, h.render v = .ok t := by
  cases v with
  | text s => exact ⟨s, rfl⟩
  | kind k => exact ⟨k.name, rfl⟩
  | category c => exact ⟨c.name, rfl⟩
  | _ => cases hv

end Heap

end Promptbook

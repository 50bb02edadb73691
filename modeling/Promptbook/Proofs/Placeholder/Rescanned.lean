import Mathlib.Data.List.Basic
import Promptbook.Proofs.Placeholder

namespace Promptbook

namespace Piece

variable {c : Char} {s r path : List Char} {g : Piece → List Piece} {ps : List Piece}

theorem filterMap_path?_letters (r : List Char) : (r.map letter).filterMap path? = [] := by
  simp [List.filterMap_map, path?]

def Settled (g : Piece → List Piece) (p : Piece) : Prop :=
  g p = [p] ∨ ∃ path r, p = slot path ∧ Text.Plain r ∧ g p = r.map letter

theorem Settled.apply_letter (hg : Settled g (letter c)) : g (letter c) = [letter c] := by
  rcases hg with hkept | ⟨path, r, heq, -⟩
  · exact hkept
  · cases heq

theorem flatMap_letters (hg : ∀ c ∈ s, Settled g (letter c)) :
    (s.map letter).flatMap g = s.map letter := by
  induction s with
  | nil => rfl
  | cons c s ih =>
    rw [List.forall_mem_cons] at hg
    rw [List.map_cons, List.flatMap_cons, hg.1.apply_letter, ih hg.2, List.singleton_append]

theorem head?_flatMap_source (hg : ∀ p ∈ ps, Settled g p)
    (h : ((ps.flatMap g).flatMap source).head? = some '{') :
    (ps.flatMap source).head? = some '{' := by
  cases ps with
  | nil => cases h
  | cons p ps =>
    rw [List.flatMap_cons, List.flatMap_append] at h
    rcases hg p List.mem_cons_self with hkept | ⟨path, r, rfl, hr, hplain⟩
    · rw [hkept] at h
      cases p with
      | letter c => exact h
      | slot path => cases h
    · rw [hplain, flatMap_source_letters] at h
      cases r with
      | nil => exact absurd rfl hr.1
      | cons d r => exact absurd (Option.some.inj h) (hr.2 d List.mem_cons_self).2.1

theorem head?_rewrite (hg : ∀ p ∈ ofChars s, Settled g p)
    (h : (rewrite g s).head? = some '{') : s.head? = some '{' := by
  rw [← flatMap_source_ofChars s]
  exact head?_flatMap_source hg h

theorem ofChars_cons (h : c ≠ '$') : ofChars (c :: s) = letter c :: ofChars s :=
  ofChars_letter (.inl fun hc => h hc.1)

theorem rewrite_cons (h : c ≠ '$') (hg : Settled g (letter c)) :
    rewrite g (c :: s) = c :: rewrite g s := by
  rw [rewrite, ofChars_cons h, List.flatMap_cons, hg.apply_letter]
  rfl

theorem takePath?_rewrite (hg : ∀ p ∈ ofChars s, Settled g p) (h : takePath? s = none) :
    takePath? (rewrite g s) = none := by
  by_cases hs : '}' ∈ s
  · have hhead := head?_of_takePath?_eq_none h hs
    cases s with
    | nil => cases hhead
    | cons c s =>
      obtain rfl := Option.some.inj hhead
      rw [ofChars_cons (by decide), List.forall_mem_cons] at hg
      rw [rewrite_cons (by decide) hg.1]
      exact takePath?_brace _
  · rw [ofChars_of_no_brace hs, List.forall_mem_map] at hg
    rw [rewrite, ofChars_of_no_brace hs, flatMap_letters hg, flatMap_source_letters]
    exact h

theorem ofChars_rewrite (hg : ∀ p ∈ ofChars s, Settled g p) :
    ofChars (rewrite g s) = (ofChars s).flatMap g := by
  unfold rewrite
  fun_induction ofChars s with
  | case1 => rw [List.flatMap_nil, List.flatMap_nil, ofChars]
  | case2 c s hc path rest ht ih =>
    obtain ⟨hpath, hrest⟩ := List.forall_mem_cons.1 hg
    obtain ⟨hne, hnot, -⟩ := takePath?_eq_some.1 ht
    rw [List.flatMap_cons, List.flatMap_append]
    rcases hpath with hkept | ⟨_, r, -, hr, hplain⟩
    · rw [hkept, List.flatMap_cons, List.flatMap_nil, List.append_nil, ofChars_slot hne hnot,
        ih hrest, List.singleton_append]
    · have hlast : r.getLast? ≠ some '$' := fun h => hr.no_dollar (List.mem_of_getLast? h)
      rw [hplain, flatMap_source_letters, ofChars_append (Text.noneOpen_of_no_dollar hr.no_dollar)
        fun h => absurd h hlast, ofChars_of_no_brace hr.no_brace, ih hrest]
  | case3 c s hc ht ih =>
    obtain ⟨hletter, hrest⟩ := List.forall_mem_cons.1 hg
    have hnone : takePath? (rewrite g s).tail = none := by
      cases s with
      | nil => cases hc.2
      | cons d s =>
        obtain rfl := Option.some.inj hc.2
        rw [ofChars_cons (by decide), List.forall_mem_cons] at hrest
        rw [rewrite_cons (by decide) hrest.1]
        exact takePath?_rewrite hrest.2 ht
    rw [List.flatMap_cons, hletter.apply_letter]
    exact (ofChars_letter (.inr hnone)).trans (congrArg (letter c :: ·) (ih hrest))
  | case4 c s hc ih =>
    obtain ⟨hletter, hrest⟩ := List.forall_mem_cons.1 hg
    have hhead : ¬ (c = '$' ∧ (rewrite g s).head? = some '{') :=
      fun h => hc ⟨h.1, head?_rewrite hrest h.2⟩
    rw [List.flatMap_cons, hletter.apply_letter]
    exact (ofChars_letter (.inl hhead)).trans (congrArg (letter c :: ·) (ih hrest))

end Piece

namespace Heap

variable {h : Heap} {values : Value} {t u : String} {ps : List Piece}

/-- Each path of a text that leads to a value leads to one whose text is plain. -/
def RendersPlain (h : Heap) (values : Value) (t : String) : Prop :=
  ∀ path ∈ placeholderPaths t, ∀ v, h.lookup path values = .ok (some v) →
    ∃ r, h.render v = .ok r ∧ Text.Plain r.toList

theorem rendersPlain_iff : h.RendersPlain values t ↔ ∀ path ∈ placeholderPaths t,
    h.leads values path = true →
      (h.textAt? values path).any fun r => decide (Text.Plain r.toList) := by
  refine forall₂_congr fun path _ => ?_
  simp only [leads_eq_true, forall_exists_index, Option.any_eq_true, textAt?_eq_some,
    decide_eq_true_iff]
  refine forall₂_congr fun v hv => ?_
  constructor
  · rintro ⟨r, hr, hplain⟩
    exact ⟨r, ⟨v, hv, hr⟩, hplain⟩
  · rintro ⟨r, ⟨w, hw, hr⟩, hplain⟩
    obtain rfl := Option.some.inj (Except.ok.inj (hv.symm.trans hw))
    exact ⟨r, hr, hplain⟩

instance : Decidable (h.RendersPlain values t) :=
  decidable_of_iff _ rendersPlain_iff.symm

theorem RendersPlain.renders (hp : h.RendersPlain values t)
    (hl : ∀ path ∈ placeholderPaths t, ∃ o, h.lookup path values = .ok o) :
    ∀ path ∈ placeholderPaths t, h.Renders values path := by
  intro path hpath
  obtain ⟨o, ho⟩ := hl path hpath
  exact ⟨o, ho, fun v hv => (hp path hpath v (hv ▸ ho)).imp fun _ hr => hr.1⟩

theorem RendersPlain.settled (hp : h.RendersPlain values t) :
    ∀ p ∈ Piece.ofChars t.toList, Piece.Settled (h.settle values) p := by
  intro p hmem
  cases p with
  | letter c => exact .inl (settle_of_no_path rfl)
  | slot path =>
    cases htext : (Piece.slot path).path?.bind (h.textAt? values) with
    | none => exact .inl (by simp only [settle, htext])
    | some r =>
      obtain ⟨q, hq, hr⟩ := Option.bind_eq_some_iff.1 htext
      obtain ⟨v, hl, hr⟩ := textAt?_eq_some.1 hr
      obtain ⟨r', hr', hplain⟩ := hp q (List.mem_filterMap.2 ⟨_, hmem, hq⟩) v hl
      obtain rfl := Except.ok.inj (hr.symm.trans hr')
      exact .inr ⟨path, r.toList, rfl, hplain, settle_written hq hl hr⟩

/-- A text whose paths lead nowhere or to plain texts is cut after its replacement as before it. -/
theorem RendersPlain.ofChars_substitute (hp : h.RendersPlain values t)
    (hu : h.substitute values t = .ok u) :
    Piece.ofChars u.toList = (Piece.ofChars t.toList).flatMap (h.settle values) := by
  rw [substitute_eq_rewrite (hp.renders (lookup_of_substitute hu))] at hu
  rw [← Except.ok.inj hu, String.toList_ofList, Piece.ofChars_rewrite hp.settled]

theorem filterMap_settle (hp : ∀ path ∈ ps.filterMap Piece.path?, ∀ v,
      h.lookup path values = .ok (some v) → ∃ r, h.render v = .ok r) :
    (ps.flatMap (h.settle values)).filterMap Piece.path? =
      (ps.filterMap Piece.path?).filter fun path => !h.leads values path := by
  induction ps with
  | nil => rfl
  | cons p ps ih =>
    rw [List.flatMap_cons, List.filterMap_append]
    cases hpath : p.path? with
    | none =>
      rw [List.filterMap_cons_none hpath] at hp ⊢
      rw [settle_of_no_path hpath, ih hp, List.filterMap_cons_none hpath]
      rfl
    | some path =>
      rw [List.filterMap_cons_some hpath, List.forall_mem_cons] at hp
      rw [List.filterMap_cons_some hpath, ih hp.2, List.filter_cons]
      cases hleads : h.leads values path with
      | false =>
        rw [settle_kept hpath hleads, List.filterMap_cons_some hpath]
        rfl
      | true =>
        obtain ⟨v, hl⟩ := leads_eq_true.1 hleads
        obtain ⟨r, hr⟩ := hp.1 v hl
        rw [settle_written hpath hl hr, Piece.filterMap_path?_letters]
        rfl

/-- A replacement with plain texts returns if no lookup fails, and the placeholders it leaves are
those whose paths lead nowhere. -/
theorem placeholderPaths_substitute (hp : h.RendersPlain values t) :
    ((∃ u, h.substitute values t = .ok u) ↔
      ∀ path ∈ placeholderPaths t, ∃ o, h.lookup path values = .ok o) ∧
    (∀ u, h.substitute values t = .ok u →
      placeholderPaths u = (placeholderPaths t).filter fun path => !h.leads values path) ∧
    ((∀ path ∈ placeholderPaths t, h.leads values path = true) →
      ∃ u, h.substitute values t = .ok u ∧ placeholderPaths u = []) := by
  have hleft : ∀ u, h.substitute values t = .ok u →
      placeholderPaths u = (placeholderPaths t).filter fun path => !h.leads values path := by
    intro u hu
    rw [placeholderPaths, hp.ofChars_substitute hu]
    exact filterMap_settle fun path hpath v hl => (hp path hpath v hl).imp fun _ hr => hr.1
  have hreturns : (∃ u, h.substitute values t = .ok u) ↔
      ∀ path ∈ placeholderPaths t, ∃ o, h.lookup path values = .ok o := by
    constructor
    · rintro ⟨u, hu⟩
      exact lookup_of_substitute hu
    · intro hl
      exact ⟨_, substitute_eq_rewrite (hp.renders hl)⟩
  refine ⟨hreturns, hleft, fun hall => ?_⟩
  have hl : ∀ path ∈ placeholderPaths t, ∃ o, h.lookup path values = .ok o := by
    intro path hpath
    obtain ⟨v, hv⟩ := leads_eq_true.1 (hall path hpath)
    exact ⟨_, hv⟩
  obtain ⟨u, hu⟩ := hreturns.2 hl
  refine ⟨u, hu, ?_⟩
  rw [hleft u hu, List.filter_eq_nil_iff]
  intro path hpath
  rw [hall path hpath]
  decide

/-- Variables, with a text that has placeholders for them and others, and strays. -/
def partly : Heap where
  nodes := #[.dict [(.text "a", .text "1"), (.text "user", .ref ⟨1⟩), (.text "n", .bool true)],
    .dict [(.text "name", .text "Sam")]]

def partlyText : String :=
  "${a}: $${ user.name } of ${user.age} ${} \x7b${n}$\x7bq $\x7ba\x7d $\x7bb"

theorem placeholderPaths_substitute_partly : partly.RendersPlain (.ref ⟨0⟩) partlyText ∧
    ∃ u, partly.substitute (.ref ⟨0⟩) partlyText = .ok u ∧
      placeholderPaths u = ["user.age", "q $\x7ba"] := by
  have hp : partly.RendersPlain (.ref ⟨0⟩) partlyText := by decide +kernel
  have hpaths : placeholderPaths partlyText = ["a", "user.name", "user.age", "n", "q $\x7ba"] := by
    decide +kernel
  obtain ⟨hreturns, hleft, -⟩ := placeholderPaths_substitute hp
  have hl : ∀ path ∈ placeholderPaths partlyText, ∃ o, partly.lookup path (.ref ⟨0⟩) = .ok o := by
    rw [hpaths]
    simp only [List.forall_mem_cons]
    exact ⟨⟨_, rfl⟩, ⟨_, rfl⟩, ⟨_, rfl⟩, ⟨_, rfl⟩, ⟨_, rfl⟩, List.forall_mem_nil _⟩
  obtain ⟨u, hu⟩ := hreturns.2 hl
  refine ⟨hp, u, hu, ?_⟩
  rw [hleft u hu, hpaths]
  decide +kernel

end Heap

end Promptbook

import Promptbook.Proofs.Body.Steady
import Promptbook.Proofs.Heap.Ordinary
import Promptbook.Proofs.Prompt.Made

namespace Promptbook

namespace Heap

variable {h k : Heap} {v w : Value} {es : Entries Value}

theorem Storable.newListOr (ht : h.Storable v) (hc : h.Closed) (hrun : h.newListOr v = .ok (w, k)) :
    k.Closed ∧ k.Holds w ∧ k.Nested k.depths.resolve [] w ∧ k.Copyable w := by
  obtain ⟨xs, hk, hxs⟩ := newListOr_eq_ok hrun
  have hitems : ∀ x ∈ xs, h.Storable x ∧ h.Nested (h.depths.resolve - 1) [] x := by
    intro x hx
    obtain ⟨ys, hys, hmem⟩ := hxs x hx
    exact ht.item hc hys hmem
  cases hk
  refine ⟨hc.alloc fun x hx => (hitems x hx).1.holds, ?_, ?_, ?_⟩
  · intro r hr
    cases hr
    exact ⟨_, get?_alloc h _⟩
  · have hlimit : (h.alloc (.list xs)).2.depths.resolve = h.depths.resolve - 1 + 1 :=
      (Nat.succ_pred_eq_of_pos (Nat.zero_lt_of_lt h.depths.two_le_resolve)).symm
    rw [hlimit, nested_succ_iff (get?_alloc h _)]
    right
    intro x hx
    have hx' := (Extends.alloc h (.list xs)).nested hc (hitems x hx).1.holds (hitems x hx).2
    exact hx'.weaken (List.nil_subset _)
  · intro ρ u hu
    cases ρ with
    | nil =>
      cases hu
      rfl
    | cons st ρ =>
      obtain ⟨r, node, x, hr, hnode, hx, hu⟩ := follow_cons_eq_some.1 hu
      cases hr
      cases (get?_alloc h _).symm.trans hnode
      have hx := (hitems x (Node.mem_elements.2 ⟨st, hx⟩)).1
      exact (hx.mono hc (Extends.alloc h (.list xs))).copyable ρ u hu

theorem closed_newDictOr (hc : h.Closed) (hm : h.mapping? v = some (.entries es))
    (hrun : h.newDictOr v = .ok (w, k)) : k.Closed := by
  obtain ⟨fs, hk, hfs⟩ := newDictOr_eq_ok hrun
  have hheld : ∀ x ∈ (Node.dict fs).elements, h.Holds x := by
    obtain rfl | hfs := hfs
    · exact List.forall_mem_nil _
    · obtain ⟨r, rfl, hr⟩ := exists_of_entries hm
      rw [entriesOf, hm] at hfs
      cases hfs
      exact fun x hx => hc.holds_element hr hx
  cases hk
  exact hc.alloc hheld

end Heap

section Options

variable {h k : Heap} {v : Value} {m : Mapping} {o : Options}

theorem Options.closed_ofValue (hc : h.Closed) (ht : h.Storable v) (hm : h.mapping? v = some m)
    (ho : Review.OptionsAccepted h m) (hrun : Options.ofValue h v = .ok (o, k)) : k.Closed := by
  simp only [Options.ofValue, bind_eq_ok, Prod.exists] at hrun
  obtain ⟨m', hm', v₁, hv₁, w₁, k₁, hrun₁, v₂, hv₂, w₂, k₂, hrun₂, v₃, hv₃, w₃, k₃, hrun₃, v₄, -,
    v₅, -, hrun⟩ := hrun
  obtain ⟨defaults, hdefaults, hdefaultsMap⟩ := ho.defaults
  obtain ⟨rules, hrules, hrulesMap⟩ := ho.rules
  obtain ⟨ds, hds⟩ := ht.unsealed.field_entries hm hdefaults hdefaultsMap
  obtain ⟨rs, hrs⟩ := ht.unsealed.field_entries hm hrules hrulesMap
  have htrue : h.truth v = .ok true := by
    rw [Heap.truth_of_mapping? hm,
      Heap.truthy_of_field hm hdefaults (Review.ne_null_of_isMapping hdefaultsMap)]
  rw [Hints.recordMapping_eq_ok htrue] at hm'
  obtain rfl := Option.some.inj (hm'.symm.trans hm)
  obtain rfl := Except.ok.inj (hdefaults.symm.trans hv₂)
  obtain rfl := Except.ok.inj (hrules.symm.trans hv₃)
  have he₁ := Heap.extends_newListOr hrun₁
  have he₂ := he₁.trans (Heap.extends_newDictOr hrun₂)
  obtain ⟨hc₁, -, -⟩ := (ht.field hc hm hv₁).newListOr hc hrun₁
  have hc₂ := Heap.closed_newDictOr hc₁ (he₁.mapping?_of_some hds) hrun₂
  have hc₃ := Heap.closed_newDictOr hc₂ (he₂.mapping?_of_some hrs) hrun₃
  cases hrun
  exact hc₃

end Options

namespace Hints

variable {h k : Heap} {data : Value} {hints : Hints}

theorem storable_ofValue (hc : h.Closed) (ht : h.Storable data) (htrue : h.truth data = .ok true)
    (hrun : Hints.ofValue h data = .ok (hints, k)) : k.Closed ∧
      ∀ v ∈ [hints.languages, hints.context, hints.notes, hints.legacy],
        k.Holds v ∧ k.Nested k.depths.resolve [] v ∧ k.Copyable v := by
  simp only [Hints.ofValue, bind_eq_ok, recordMapping_eq_ok htrue, Prod.exists] at hrun
  obtain ⟨m, hm, v₁, hv₁, w₁, k₁, hrun₁, v₂, hv₂, w₂, k₂, hrun₂, v₃, hv₃, v₄, -, v₅, -, hrun⟩ :=
    hrun
  cases hrun
  have he₁ := Heap.extends_newListOr hrun₁
  have he₂ := Heap.extends_newListOr hrun₂
  obtain ⟨hc₁, hheld₁, hnested₁, hcopies₁⟩ := (ht.field hc hm hv₁).newListOr hc hrun₁
  obtain ⟨hc₂, hheld₂, hnested₂, hcopies₂⟩ :=
    ((ht.field hc hm hv₂).mono hc he₁).newListOr hc₁ hrun₂
  have hnotes := (ht.field hc hm hv₃).mono hc (he₁.trans he₂)
  refine ⟨hc₂, ?_⟩
  simp only [List.forall_mem_cons]
  rw [← he₂.depths] at hnested₁
  refine ⟨⟨he₂.holds hheld₁, he₂.nested hc₁ hheld₁ hnested₁, he₂.copyable hc₁ hheld₁ hcopies₁⟩,
    ⟨hheld₂, hnested₂, hcopies₂⟩, ⟨hnotes.holds, hnotes.bounded.whole, hnotes.copyable⟩, ?_,
    List.forall_mem_nil _⟩
  have hlegacy : ∀ b, k.Storable (.bool b) := fun b => .of_not_ref rfl rfl
  exact ⟨(hlegacy _).holds, (hlegacy _).bounded.whole, (hlegacy _).copyable⟩

end Hints

namespace Review

variable {h : Heap} {v : Value} {m : Mapping}

theorem BodyAccepted.isFilled {name : String}
    (ht : m.HasText name fun s => Text.hasInk s = true) :
    ∃ v, m.field name = .ok v ∧ Body.isFilledText v = true := by
  obtain ⟨v, s, hv, hs, hink⟩ := ht
  exact ⟨v, hv, by rw [Body.isFilledText, hs, Option.any_some, hink]⟩

theorem BodyAccepted.check (hb : BodyAccepted h m) (hm : h.mapping? v = some m)
    (ht : h.truthy v = true) : Body.check h v = .ok .clean := by
  obtain ⟨task, htask, hink⟩ := isFilled hb.task
  obtain ⟨instructions, hinstructions, hink'⟩ := isFilled hb.instructions
  obtain ⟨context, hcontext, hcontextMap⟩ := hb.context
  obtain ⟨format, hformat, hformatMap⟩ := hb.format
  obtain ⟨declared, hdeclared, hlist⟩ := hb.declared
  simp only [Body.check, hm, ht, htask, hinstructions, hcontext, hformat, hdeclared, ok_bind, hink,
    hink', hcontextMap, hformatMap, hlist]
  rfl

end Review

namespace Prompt

variable {h k : Heap} {data : Value} {m : Mapping} {serial : Nat} {p : Prompt}

theorem MadeOf.plain (hp : MadeOf h m serial p k) (hc : h.Closed) (ht : h.Storable data)
    (hm : h.mapping? data = some m) (ha : Review.Accepted h m) :
    k.Closed ∧ p.Stored k ∧ p.Plain k := by
  obtain ⟨he, -⟩ := hp.extends
  obtain ⟨id, hid, -⟩ := hp.worded ha
  have hidHeld : k.Holds p.id := by
    intro r hr
    rw [hr] at hid
    cases hid
  have hidText : ∃ t, k.text p.id = .ok t := by
    obtain ⟨t, ht, -⟩ := Heap.text_of_asText (h := k) hid
    exact ⟨t, ht⟩
  obtain ⟨b, hb, hbody⟩ := hp.body
  have hbodyHeld : k.Holds p.body := by
    rw [hbody]
    split
    · exact ((ht.field hc hm hb).mono hc he).holds
    · exact Heap.holds_of_not_ref nofun
  obtain ⟨config, o, k₁, data', hconfig, ho, hdata', hhints⟩ := hp.hints
  obtain ⟨config', hconfig', co, hco, hoptions⟩ := ha.given
  obtain rfl := Except.ok.inj (hconfig.symm.trans hconfig')
  obtain ⟨he₁, -⟩ := Options.extends_ofValue ho
  have hc₁ := Options.closed_ofValue hc (ht.field hc hm hconfig) hco hoptions ho
  obtain ⟨-, hnone, rfl⟩ | ⟨htrue, hints, hsome, hrun⟩ := hhints
  · have hno : ∀ hints, p.hints ≠ some hints := by
      intro hints heq
      rw [hnone] at heq
      cases heq
    exact ⟨hc₁, ⟨hidHeld, hbodyHeld, fun hints hh => (hno hints hh).elim⟩,
      ⟨hidText, fun hints hh => (hno hints hh).elim⟩⟩
  · obtain ⟨hc₂, hparts⟩ :=
      Hints.storable_ofValue hc₁ ((ht.field hc hm hdata').mono hc he₁) htrue hrun
    refine ⟨hc₂, ⟨hidHeld, hbodyHeld, ?_⟩, ⟨hidText, ?_⟩⟩
    · intro hints' hh v hv
      obtain rfl := Option.some.inj (hsome.symm.trans hh)
      exact (hparts v hv).1
    · intro hints' hh v hv
      obtain rfl := Option.some.inj (hsome.symm.trans hh)
      exact (hparts v hv).2.imp_left fun hn => hn.mono (Nat.min_le_left _ _)

/-- The body of a prompt made of an accepted record is the record's own, and passes its check
without a warning. -/
theorem MadeOf.check (hp : MadeOf h m serial p k) (hc : h.Closed) (ht : h.Storable data)
    (hm : h.mapping? data = some m) (ha : Review.Accepted h m) :
    k.Storable p.body ∧ Body.check k p.body = .ok .clean := by
  obtain ⟨he, -⟩ := hp.extends
  obtain ⟨b, hb, htruthy, bm, hbm, haccepted⟩ := ha.content
  obtain ⟨b', hb', hbody⟩ := hp.body
  obtain rfl := Except.ok.inj (hb.symm.trans hb')
  have hstorable := ht.field hc hm hb
  have hmap : h.isMapping b = true := by rw [Heap.isMapping, hbm, Option.isSome_some]
  rw [hbody, if_pos (ht.unsealed.isDict_field hm hb hmap he)]
  refine ⟨hstorable.mono hc he, ?_⟩
  rw [Body.check_eq he hc hstorable.holds]
  exact haccepted.check hbm htruthy

/-- A prompt made of a record of data, nested below the depths of copying and of filling, that can be
copied and on which a review has no error to report. -/
structure Reviewed (settings : ReviewSettings) (h : Heap) (data : Value) (serial : Nat)
    (p : Prompt) (k : Heap) : Prop where
  closed : h.Closed
  unsealed : h.Unsealed data
  bounded : h.Bounded h.depths.resolve data
  copyable : h.Copyable data
  review : ∃ w, Review.record settings h data = .ok w ∧ w.errors = []
  made : Prompt.ofValue h serial data = .ok (p, k)

variable {settings : ReviewSettings}

theorem Reviewed.ready (hr : Reviewed settings h data serial p k) :
    k.Closed ∧ p.Stored k ∧ p.Plain k ∧ k.Storable p.body ∧ Body.check k p.body = .ok .clean := by
  obtain ⟨w, hreview, hw⟩ := hr.review
  obtain ⟨m, hm, ha⟩ := Review.record_accepts hreview hw
  obtain ⟨m', hm', hmade⟩ := madeOf_of_ofValue hr.made
  obtain rfl := Option.some.inj (hm.symm.trans hm')
  have ht : h.Storable data := ⟨Heap.holds_of_mapping? hm, hr.unsealed, hr.bounded, hr.copyable⟩
  obtain ⟨hk, hstored, hplain⟩ := hmade.plain hr.closed ht hm ha
  obtain ⟨hbody, hcheck⟩ := hmade.check hr.closed ht hm ha
  exact ⟨hk, hstored, hplain, hbody, hcheck⟩

def letterHeap : Heap where
  nodes := #[
    .dict [(.text "id", .text "letter"), (.text "name", .text "Letter"),
      (.text "description", .text ""), (.text "category", .text "general"),
      (.text "template", .ref ⟨1⟩), (.text "config", .ref ⟨5⟩),
      (.text "schema_version", .text "1.0")],
    .dict [(.text "task", .text "${v}"), (.text "instructions", .text "Write it"),
      (.text "context", .ref ⟨2⟩), (.text "output_format", .ref ⟨3⟩),
      (.text "variables", .ref ⟨4⟩)],
    .dict [(.text "tone", .text "warm")],
    .dict [(.text "structure", .text "text")],
    .list [.text "v"],
    .dict [(.text "configurable_fields", .ref ⟨6⟩), (.text "default_values", .ref ⟨7⟩),
      (.text "validation_rules", .ref ⟨8⟩)],
    .list [],
    .dict [],
    .dict []]

def letterPrompt : Prompt where
  serial := 0
  id := .text "letter"
  name := .text "Letter"
  body := .ref ⟨1⟩
  description := .text ""
  category := .general
  version := .text "1.0.0"
  schemaVersion := .text "1.0"
  options := ⟨.ref ⟨9⟩, .ref ⟨10⟩, .ref ⟨11⟩, .null, .null⟩
  hints := none
  author := .null
  created := .null
  modified := .null

/-- The heap of the record with the new containers of the options. -/
def letterMade : Heap where
  nodes := letterHeap.nodes ++ #[.list [], .dict [], .dict []]

theorem letter_reviewed :
    Reviewed {} letterHeap (.ref ⟨0⟩) 0 letterPrompt letterMade where
  closed := by decide
  unsealed := (Heap.Ordinary.of_elements (by decide)).unsealed
  bounded := Heap.Bounded.of_elements (n := 4) (by decide) (by decide)
  copyable := .of_elements (by decide)
  review := ⟨.clean, by decide +kernel, rfl⟩
  made := by decide +kernel

def roundHeap : Heap where
  nodes := letterMade.nodes ++ #[.list [.ref ⟨12⟩], .dict [(.text "v", .ref ⟨12⟩)]]

def nestStore (n : Nat) : Value × Heap :=
  (letterMade.nest n).2.store (.dict [(.text "v", (letterMade.nest n).1)])

section NestStore

variable {n : Nat}

theorem nestStore_extends : (letterMade.nest n).2.Extends (nestStore n).2 :=
  .alloc _ _

theorem nestStore_get? : ∃ r, (nestStore n).1 = .ref r ∧
    (nestStore n).2.get? r = some (.dict [(.text "v", (letterMade.nest n).1)]) :=
  ⟨_, rfl, Heap.get?_alloc _ _⟩

theorem nestStore_closed : (nestStore n).2.Closed := by
  have hk : letterMade.Closed := by decide
  apply (Heap.closed_nest hk n).alloc
  intro v hv
  obtain rfl | rfl : v = .text "v" ∨ v = (letterMade.nest n).1 := by
    simpa [Node.elements] using hv
  · exact Heap.holds_text _ _
  · exact Heap.holds_nest _ _

theorem nestStore_ordinary : (nestStore n).2.Ordinary (nestStore n).1 := by
  obtain ⟨r, hr, hget⟩ := nestStore_get? (n := n)
  intro ρ w hw
  cases ρ with
  | nil =>
    cases hw
    rw [hr, Heap.isOrdinary, Heap.node?_ref, hget]
    rfl
  | cons st ρ =>
    obtain ⟨q, node, u, hq, hnode, hu, hw⟩ := Heap.follow_cons_eq_some.1 hw
    cases hr.symm.trans hq
    cases hget.symm.trans hnode
    have hmem := Node.mem_elements.2 ⟨st, hu⟩
    obtain rfl | rfl : u = .text "v" ∨ u = (letterMade.nest n).1 := by
      simpa [Node.elements] using hmem
    · rw [Heap.follow_of_not_ref rfl hw]
      rfl
    · exact Heap.ordinary_nest nestStore_extends ρ w hw

theorem nestStore_substitute (hn : (nestStore n).2.depths.search ≤ n) :
    (nestStore n).2.substitute (nestStore n).1 "${v}" = .error .tooDeep := by
  obtain ⟨r, hr, hget⟩ := nestStore_get? (n := n)
  have hm : (nestStore n).2.mapping? (nestStore n).1 =
      some (.entries [(.text "v", (letterMade.nest n).1)]) := by
    rw [hr, Heap.mapping?, Heap.node?_ref, hget]
  have hpieces : Piece.ofChars "${v}".toList = [.slot ['v']] := by decide +kernel
  have hpath : (Piece.slot ['v']).path? = some "v" := rfl
  have hlookup : (nestStore n).2.lookup "v" (nestStore n).1 =
      .ok (some (letterMade.nest n).1) := by
    rw [Heap.lookup, show Text.split '.' "v" = ["v"] from rfl, Heap.walk_cons hm]
    rfl
  rw [Heap.substitute, hpieces, Heap.fillPieces, Heap.fillPiece, hpath]
  simp only [hlookup, ok_bind, Heap.render_nest nestStore_extends hn]
  rfl

theorem letter_resolve_nested (hn : (nestStore n).2.depths.search ≤ n) :
    ((Action.resolve false (some letterPrompt) (nestStore n).1).run.run
      { heap := (nestStore n).2 }).1 =
        .error (.substitution "Template 'letter' is nested too deeply to resolve") := by
  have he : letterMade.Extends (nestStore n).2 :=
    (Heap.extends_nest letterMade n).trans nestStore_extends
  have hc : (nestStore n).2.Closed := nestStore_closed
  obtain ⟨hk, hstored, hplain, hbody, hcheck⟩ := letter_reviewed.ready
  obtain ⟨r, hr, -⟩ := nestStore_get? (n := n)
  have hsupply : (nestStore n).2.supply (nestStore n).1 = nestStore n := by
    rw [Heap.supply, if_neg]
    intro hnull
    cases hr.symm.trans hnull
  have hb : (nestStore n).2.get? ⟨1⟩ = letterMade.get? ⟨1⟩ := he.get?_eq ⟨_, rfl⟩
  have hbody' := hbody.mono hk he
  have hcheck' : Body.check (nestStore n).2 letterPrompt.body = .ok .clean := by
    rw [Body.check_eq he hk hstored.body]
    exact hcheck
  have hfill : letterPrompt.fillChecked ((nestStore n).2.supply (nestStore n).1).2
      ((nestStore n).2.supply (nestStore n).1).1 = .failed .tooDeep := by
    rw [hsupply]
    exact fillChecked_failed hc nestStore_ordinary.holds rfl hb (by decide) hbody'.bounded.whole
      hbody'.copyable (nestStore_substitute hn)
  exact Action.resolve_of_failed (s := { heap := (nestStore n).2 }) hc (hstored.mono he) hcheck'
    rfl hfill (Heap.text_text _ _)

end NestStore

end Prompt

end Promptbook

import Promptbook.Proofs.Body.Resolved
import Promptbook.Proofs.Body.Sole
import Promptbook.Proofs.Heap.Renamed

namespace Promptbook

namespace Heap

variable {h : Heap} {m : Ref → Ref} {v w : Value} {b c r : Ref} {es : List (Value × Value)}
  {n : Nat} {used : List String} {name t : String}

theorem isMapping_eq (h : Heap) (v : Value) : h.isMapping v =
    (h.node? v).any fun | .dict _ | .sealed .. => true | _ => false := by
  rw [isMapping, mapping?]
  cases h.node? v with
  | none => rfl
  | some node => cases node <;> rfl

theorem list?_map_eq (h : Heap) (v : Value) : h.list? v =
    (h.node? v).bind fun | .list xs => some xs | _ => none := by
  rw [list?]
  cases h.node? v with
  | none => rfl
  | some node => cases node <;> rfl

namespace Expands

variable (hx : h.Expands m b c) (hc : h.Closed) (hh : h.Holds (.ref c))
include hx hc hh

theorem isMapping_image (hv : ∀ r, v = .ref r → h.Reaches (.ref c) r) :
    h.isMapping (v.map m) = h.isMapping v := by
  rw [isMapping_eq, isMapping_eq, hx.node?_image hc hh hv]
  cases h.node? v with
  | none => rfl
  | some node => cases node <;> rfl

theorem list?_image (hv : ∀ r, v = .ref r → h.Reaches (.ref c) r) :
    h.list? (v.map m) = (h.list? v).map (List.map (Value.map m)) := by
  rw [list?_map_eq, list?_map_eq, hx.node?_image hc hh hv]
  cases h.node? v with
  | none => rfl
  | some node => cases node <;> rfl

theorem get?_root : h.get? b = (h.get? c).map (Node.map m) := by
  rw [← hx.root]
  exact hx.get?_image hc hh (.refl h c)

omit hx hc hh in
theorem reaches_lookupText (hn : h.get? c = some (.dict es)) (hv : lookupText name es = some v) :
    ∀ r, v = .ref r → h.Reaches (.ref c) r := by
  obtain ⟨e, he, rfl⟩ := Option.map_eq_some_iff.1 hv
  obtain ⟨i, hi⟩ := List.mem_iff_getElem?.1 (List.mem_of_find?_eq_some he)
  have hslot : (Node.dict es).slot? i = some e.2 := by rw [Node.slot?, hi, Option.map_some]
  exact reaches_slot (.refl h c) hn hslot

theorem filledEntries_image : h.filledEntries b = (h.filledEntries c).map (Value.map m) := by
  rw [filledEntries, filledEntries, hx.entryIndices_eq hc hh, hx.get?_root hc hh,
    List.map_filterMap]
  apply List.filterMap_congr
  intro i _
  cases h.get? c with
  | none => rfl
  | some node => exact Node.slot?_map m node i

omit hx hc hh in
theorem reaches_filledEntries (hv : v ∈ h.filledEntries c) :
    ∀ r, v = .ref r → h.Reaches (.ref c) r := by
  obtain ⟨i, -, hi⟩ := List.mem_filterMap.1 hv
  obtain ⟨node, hn, hslot⟩ := Option.bind_eq_some_iff.1 hi
  exact reaches_slot (.refl h c) hn hslot

theorem note_metPaths (hw : h.Within n (.ref b)) :
    Walk.addNew used (h.metPaths b) = Walk.addNew used (h.metPaths c) := by
  have hentry : ∀ v ∈ h.filledEntries c, ∀ used,
      Walk.addNew used ((h.tour [] [v.map m]).flatMap placeholderPaths) =
        Walk.addNew used ((h.tour [] [v]).flatMap placeholderPaths) := by
    intro v hv used
    have hreach := reaches_filledEntries hv
    obtain ⟨i, -, hi⟩ := List.mem_filterMap.1 hv
    obtain ⟨node, hn, hslot⟩ := Option.bind_eq_some_iff.1 hi
    have hfollow : h.follow [.slot i] (.ref b) = some (v.map m) := by
      have hstep : node.step? (.slot i) = some v := hslot
      have hroute : h.follow [.slot i] (.ref c) = some v :=
        follow_cons_eq_some.2 ⟨c, node, v, rfl, hn, hstep, rfl⟩
      rw [hx.follow_root hc hh, hroute, Option.map_some]
    have hwv := hw.follow hfollow
    have hnone : ∀ v, h.Noted [] used v := fun _ _ hr => by cases hr
    rw [note_tour hwv (hnone _), hx.unroll_eq hc hh hreach,
      note_tour (hx.within_image hreach hwv) (hnone _)]
  rw [metPaths, metPaths, hx.filledEntries_image hc hh, List.flatMap_map]
  generalize h.filledEntries c = vs at hentry
  induction vs generalizing used with
  | nil => rfl
  | cons v vs ih =>
    rw [List.forall_mem_cons] at hentry
    rw [List.flatMap_cons, List.flatMap_cons, Walk.addNew_append, Walk.addNew_append,
      hentry.1, ih hentry.2]

theorem uses_iff : h.Uses b t ↔ h.Uses c t := by
  simp only [Uses, ← Walk.mem_entryIndices, hx.entryIndices_eq hc hh, hx.follow_root hc hh,
    Option.map_eq_some_iff]
  constructor
  · rintro ⟨i, hi, is, _, ⟨v, hv, rfl⟩, ht⟩
    exact ⟨i, hi, is, v, hv, (Value.asText?_map m v).symm.trans ht⟩
  · rintro ⟨i, hi, is, v, hv, ht⟩
    exact ⟨i, hi, is, v.map m, ⟨v, hv, rfl⟩, (Value.asText?_map m v).trans ht⟩

end Expands

end Heap

namespace Body

variable {h : Heap} {m : Ref → Ref} {b c r : Ref} {es : List (Value × Value)}

theorem check_dict (hn : h.get? r = some (.dict es)) : check h (.ref r) =
    if es.isEmpty then .ok (.error absent)
    else .ok (.join [
      .errorIf (!isFilledText ((lookupText "task" es).getD .null)) "Template task cannot be empty",
      .errorIf (!isFilledText ((lookupText "instructions" es).getD .null))
        "Template must have non-empty instructions field",
      .errorIf (!h.isMapping ((lookupText "context" es).getD .null))
        "Template must have a context object",
      .errorIf (!h.isMapping ((lookupText "output_format" es).getD .null))
        "Template must have an output_format object",
      .warnIf (!h.isList ((lookupText "variables" es).getD .null))
        "Template should have a variables array listing expected variables"]) := by
  have hm : h.mapping? (.ref r) = some (.entries es) := by
    simp only [Heap.mapping?, Heap.node?_ref, hn]
  rw [check, hm, Heap.truthy, hn]
  cases es <;> rfl

theorem check_image (hx : h.Expands m b c) (hc : h.Closed) (hh : h.Holds (.ref c)) :
    check h (.ref b) = check h (.ref c) := by
  have hroot := hx.get?_root hc hh
  obtain ⟨node, hn⟩ := hh c rfl
  rw [hn, Option.map_some] at hroot
  cases node with
  | dict es =>
    have hreach (name : String) : ∀ r, (lookupText name es).getD .null = .ref r →
        h.Reaches (.ref c) r := by
      cases hl : lookupText name es with
      | none => exact fun _ he => by cases he
      | some v => exact Heap.Expands.reaches_lookupText hn hl
    have hmap (name : String) : (lookupText name (es.map fun e => (e.1.map m, e.2.map m))).getD
        .null = ((lookupText name es).getD .null).map m := by
      rw [lookupText_map]
      cases lookupText name es <;> rfl
    rw [check_dict hn, check_dict hroot]
    simp only [hmap, isFilledText, Value.asText?_map, List.isEmpty_map, Heap.isList,
      hx.isMapping_image hc hh (hreach _), hx.list?_image hc hh (hreach _), Option.isSome_map]
  | _ =>
    simp only [check, Heap.mapping?, Heap.node?_ref, hroot, hn, Node.map, Heap.truthy,
      Heap.truth_ref, ok_bind]

end Body

theorem Prompt.declared_image {h : Heap} {m : Ref → Ref} {b c : Ref} {p : Prompt}
    (hx : h.Expands m b c) (hc : h.Closed) (hh : h.Holds (.ref c)) (hbody : p.body = .ref b) :
    p.declared h = Prompt.declared h { p with body := .ref c } := by
  have hroot := hx.get?_root hc hh
  obtain ⟨node, hn⟩ := hh c rfl
  rw [hn, Option.map_some] at hroot
  rw [declared, declared, hbody, Heap.dict?, Heap.dict?, Heap.node?_ref, Heap.node?_ref, hroot, hn]
  cases node with
  | dict es =>
    simp only [Node.map]
    rw [lookupText_map]
    cases hl : lookupText "variables" es with
    | none => rfl
    | some v =>
      have hreach := Heap.Expands.reaches_lookupText hn hl
      rw [Option.map_some, Option.bind_some, Option.bind_some, hx.list?_image hc hh hreach]
      cases h.list? v with
      | none => rfl
      | some xs => simp only [Option.map_some, List.filterMap_map, Function.comp_def,
          Value.asText?_map]
  | _ => rfl

namespace Heap

variable {h k : Heap} {m : Ref → Ref} {v : Value} {b c : Ref} {n : Nat}

theorem Within.apart (hw : h.Within n v) : h.Apart v := by
  rintro b root rfl hb x hx
  obtain ⟨i, hi⟩ := Node.mem_slots.1 hx
  exact hw.not_enters (open?_eq_some.2 ⟨hb, Node.isOpen_of_slot? hi⟩) hx

variable (he : h.Extends k) (hc : h.Closed)
include he hc

theorem Expands.mono (hx : h.Expands m b c) (hh : h.Holds (.ref c)) : k.Expands m b c := by
  have hget : ∀ r, h.Reaches (.ref c) r → k.get? r = h.get? r := fun r hr =>
    he.get?_eq (hc.reached hh hr)
  refine ⟨hx.root, fun r node hr hn => ?_, fun ρ σ r node hρ hσ hn => ?_⟩
  · rw [he.reaches_iff hc hh] at hr
    rw [hget r hr] at hn
    exact he.keeps (hx.origin r node hr hn)
  · rw [he.follow_eq hc hh] at hρ hσ
    rw [open?, hget r ⟨ρ, hρ⟩] at hn
    exact hx.unshared ρ σ r node hρ hσ hn

theorem Extends.sole_iff (hb : h.Holds (.ref b)) : k.Sole b ↔ h.Sole b := by
  have hopen : ∀ i r, h.EntersBy b i r → k.open? r = h.open? r := by
    rintro i r ⟨is, his⟩
    rw [open?, he.get?_eq (hc.reached hb ⟨_, his⟩), open?]
  simp only [Sole, he.entryIndices_eq hb, he.entersBy_iff hc hb, he.follow_eq hc hb]
  constructor
  · exact fun hs i hi r node hir hn => hs i hi r node hir ((hopen i r hir).trans hn)
  · exact fun hs i hi r node hir hn => hs i hi r node hir ((hopen i r hir).symm.trans hn)

end Heap

namespace Action

variable {s : Session} {p : Prompt} {values : Value} {reporting : Bool} {verdict : Verdict}
  {m : Ref → Ref} {b c : Ref}

/-- Two resolutions both return, with contents that look the same and the same paths noted, or
neither does. -/
structure SameOutcome (s : Session) (a a' : Action Payload) : Prop where
  returns : (∃ x t, a.run.run s = (.ok x, t)) ↔ ∃ x t, a'.run.run s = (.ok x, t)
  same : ∀ x t x' t', a.run.run s = (.ok x, t) → a'.run.run s = (.ok x', t') →
    t.heap.SameContent x.content t'.heap x'.content ∧ x.used = x'.used

/-- A prompt whose body passes its check, has no route as long as the limit, and can be copied. -/
structure Resolvable (h : Heap) (p : Prompt) (b : Ref) : Prop where
  closed : h.Closed
  stored : p.Stored h
  plain : p.Plain h
  body : p.body = .ref b
  accepts : ∃ verdict, Body.check h p.body = .ok verdict ∧ verdict.accepts = true
  within : h.Within h.depths.resolve p.body
  copyable : h.Copyable p.body

namespace Resolvable

variable {h k : Heap} (hp : Resolvable h p b)
include hp

theorem mono (he : h.Extends k) (hk : k.Closed) : Resolvable k p b where
  closed := hk
  stored := hp.stored.mono he
  plain := hp.plain.mono hp.stored hp.closed he
  body := hp.body
  accepts := by
    rw [Body.check_eq he hp.closed hp.stored.body]
    exact hp.accepts
  within := by
    rw [he.depths]
    exact he.within hp.closed hp.stored.body hp.within
  copyable := he.copyable hp.closed hp.stored.body hp.copyable

theorem within_body : h.Within h.depths.resolve (.ref b) :=
  hp.body ▸ hp.within

theorem holds_body : h.Holds (.ref b) :=
  hp.body ▸ hp.stored.body

end Resolvable

structure Expandable (h : Heap) (p : Prompt) (m : Ref → Ref) (b c : Ref) : Prop
    extends Resolvable h p b where
  holds : h.Holds (.ref c)
  expands : h.Expands m b c

namespace Expandable

variable {h k : Heap} (hp : Expandable h p m b c)
include hp

theorem mono (he : h.Extends k) (hk : k.Closed) : Expandable k p m b c :=
  ⟨hp.toResolvable.mono he hk, he.holds hp.holds, hp.expands.mono he hp.closed hp.holds⟩

theorem within_expansion : h.Within h.depths.resolve (.ref c) := by
  refine hp.expands.within_image (fun r hr => ?_) ?_
  · obtain rfl := Value.ref.inj hr
    exact .refl h c
  · rw [Value.map_ref, hp.expands.root]
    exact hp.within_body

theorem copyable_expansion : h.Copyable (.ref c) := by
  intro ρ w hw
  have himage : h.follow ρ p.body = some (w.map m) := by
    rw [hp.body, hp.expands.follow_root hp.closed hp.holds, hw]
    rfl
  have hcopies := hp.copyable ρ (w.map m) himage
  rwa [Value.isCopyable_map] at hcopies

theorem stored_expansion : Prompt.Stored h { p with body := .ref c } :=
  ⟨hp.stored.id, hp.holds, hp.stored.hints⟩

theorem plain_expansion : Prompt.Plain h { p with body := .ref c } :=
  ⟨hp.plain.id, hp.plain.hints⟩

end Expandable

theorem Expandable.total (hp : Expandable s.heap p m b c) (reporting : Bool)
    (hv : s.heap.Holds values) (hf : ∀ t, s.heap.Fills values t) :
    (∃ x t, (resolve reporting (some p) values).run.run s = (.ok x, t)) ∧
      ∃ x t, (resolve reporting (some { p with body := .ref c }) values).run.run s = (.ok x, t) := by
  obtain ⟨verdict, hcheck, haccepts⟩ := hp.accepts
  constructor
  · exact resolve_total reporting hp.closed hp.stored hp.plain hv hp.within.apart hcheck haccepts
      (hp.within.nested []) hp.copyable fun _ _ => .inr hf
  · rw [hp.body, Body.check_image hp.expands hp.closed hp.holds] at hcheck
    exact resolve_total reporting hp.closed hp.stored_expansion hp.plain_expansion hv
      hp.within_expansion.apart hcheck haccepts (hp.within_expansion.nested [])
      hp.copyable_expansion fun _ _ => .inr hf

theorem Expandable.filling (hp : Expandable s.heap p m b c) (hv : s.heap.Holds values)
    {x : Payload} {t : Session}
    (hrun : (resolve reporting (some p) values).run.run s = (.ok x, t)) :
    ∃ mb, x.content = .ref (mb b) ∧ s.heap.IsFilling values b t.heap mb ∧ (s.heap.Sole b →
      x.used = Walk.addNew (Walk.addNew [] (s.heap.metPaths b)) (p.declared s.heap) ∧
      ∀ u, s.heap.Uses b u → s.heap.Fills values u) := by
  obtain ⟨b', -, mb, hb, -, hcontent, hk, hused⟩ :=
    resolve_eq_ok hp.closed hp.stored hv hp.within.apart hrun
  obtain rfl := Value.ref.inj (hp.body.symm.trans hb)
  exact ⟨mb, hcontent, hk, fun hs => hused hs.once⟩

theorem Expandable.filling_expansion (hp : Expandable s.heap p m b c) (hv : s.heap.Holds values)
    {x : Payload} {t : Session}
    (hrun : (resolve reporting (some { p with body := .ref c }) values).run.run s = (.ok x, t)) :
    ∃ mc, x.content = .ref (mc c) ∧ s.heap.IsFilling values c t.heap mc ∧
      x.used = Walk.addNew (Walk.addNew [] (s.heap.metPaths b)) (p.declared s.heap) ∧
      ∀ u, s.heap.Uses b u → s.heap.Fills values u := by
  have hx := hp.expands
  obtain ⟨_, -, mc, ⟨⟩, -, hcontent, hk, hused⟩ :=
    resolve_eq_ok hp.closed hp.stored_expansion hv hp.within_expansion.apart hrun
  obtain ⟨hu, hf⟩ := hused (hx.once _)
  rw [← hx.note_metPaths hp.closed hp.holds hp.within_body,
    ← Prompt.declared_image hx hp.closed hp.holds hp.body] at hu
  exact ⟨mc, hcontent, hk, hu, fun u hu => hf u ((hx.uses_iff hp.closed hp.holds).1 hu)⟩

/-- Where the placeholders of a body have one entry each, it makes no difference to a resolution
whether the body is expanded. -/
theorem Expandable.sameOutcome (hp : Expandable s.heap p m b c) (hv : s.heap.Holds values)
    (hs : s.heap.Sole b) : SameOutcome s (resolve reporting (some p) values)
      (resolve reporting (some { p with body := .ref c }) values) := by
  obtain ⟨verdict, hcheck, haccepts⟩ := hp.accepts
  have hx := hp.expands
  refine ⟨⟨?_, ?_⟩, ?_⟩
  · rintro ⟨x, t, hrun⟩
    obtain ⟨mb, -, -, hused⟩ := hp.filling hv hrun
    rw [hp.body, Body.check_image hx hp.closed hp.holds] at hcheck
    refine resolve_total reporting hp.closed hp.stored_expansion hp.plain_expansion hv
      hp.within_expansion.apart hcheck haccepts (hp.within_expansion.nested [])
      hp.copyable_expansion ?_
    intro _ heq
    cases heq
    exact .inl ⟨hx.once _, fun u hu => (hused hs).2 u ((hx.uses_iff hp.closed hp.holds).2 hu)⟩
  · rintro ⟨x, t, hrun⟩
    obtain ⟨mc, -, -, -, hfills⟩ := hp.filling_expansion hv hrun
    refine resolve_total reporting hp.closed hp.stored hp.plain hv hp.within.apart hcheck haccepts
      (hp.within.nested []) hp.copyable fun b' hb' => ?_
    obtain rfl := Value.ref.inj (hp.body.symm.trans hb')
    exact .inl ⟨hs.once, hfills⟩
  · intro x t x' t' hrun hrun'
    obtain ⟨mb, hcontent, hk, hused⟩ := hp.filling hv hrun
    obtain ⟨mc, hcontent', hk', hused', -⟩ := hp.filling_expansion hv hrun'
    refine ⟨?_, (hused hs).1.trans hused'.symm⟩
    rw [hcontent, hcontent']
    exact (Heap.sameContent_iff hx hp.closed hp.holds hk hk').2
      (hx.filledAlike hp.closed hp.holds hp.within_body hs)

end Action

end Promptbook

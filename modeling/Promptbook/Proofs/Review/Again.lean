import Promptbook.Proofs.Heap.Literal
import Promptbook.Proofs.Prompt.Recorded
import Promptbook.Proofs.Prompt.Sufficient
import Promptbook.Proofs.Review.Renamed

namespace Promptbook

namespace Heap

variable {h k : Heap} {v w : Value} {m : Mapping} {name s : String}

theorem Literal.field_of_hasText {P : String → Prop} (hl : h.Literal v) (hm : h.mapping? v = some m)
    (ht : m.HasText name P) : ∃ s, m.field name = .ok (.text s) ∧ P s := by
  obtain ⟨w, s, hw, hs, hP⟩ := ht
  obtain rfl := hl.field_text hm hw hs
  exact ⟨s, hw, hP⟩

theorem map_later_list {d : Nat} {vs : List Value} (hvs : ∀ v ∈ vs, h.Holds v) :
    vs.map (Value.map (Ref.later h.nodes.size d)) = vs := by
  conv_rhs => rw [← List.map_id vs]
  apply List.map_congr_left
  intro v hv
  exact (hvs v hv).map_later

end Heap

namespace Review

variable {h k : Heap} {settings : ReviewSettings} {v content given configurable defaults : Value}
  {m c o : Mapping} {xs : List Value} {ds : Entries Value}

section Extended

variable (he : h.Extends k) (hc : h.Closed)
include he hc

theorem body_extended (hv : h.Holds v) : body settings k v = body settings h v := by
  have hbody := body_renamed (Heap.Shifted.start hc he).renamed settings v
  rwa [hv.map_later] at hbody

theorem lostFields_extended (hv : h.Holds v) (hxs : ∀ x ∈ xs, h.Holds x) :
    lostFields k v xs = lostFields h v xs := by
  have hlost := lostFields_renamed (Heap.Shifted.start hc he).renamed v xs
  rwa [hv.map_later, Heap.map_later_list hxs] at hlost

theorem strayDefaults_extended {keys : List Value} (hxs : ∀ x ∈ xs, h.Holds x)
    (hkeys : ∀ key ∈ keys, h.Holds key) : strayDefaults k xs keys = strayDefaults h xs keys := by
  have hstray := strayDefaults_renamed (Heap.Shifted.start hc he).renamed xs keys
  rwa [Heap.map_later_list hxs, Heap.map_later_list hkeys] at hstray

end Extended

theorem agreementVerdict_eq (hcontent : m.field "template" = .ok content)
    (hc : h.mapping? content = some c) (hgiven : m.field "config" = .ok given)
    (ho : h.mapping? given = some o) (hfields : o.field "configurable_fields" = .ok configurable)
    (hxs : h.list? configurable = some xs) (hdefaults : o.field "default_values" = .ok defaults)
    (hds : h.dict? defaults = some ds) :
    agreementVerdict h m = (do
      let lost ← lostFields h content xs
      let stray ← strayDefaults h xs (ds.map (·.1))
      return lost ++ stray) := by
  have hnames : (if (!xs.isEmpty) = true then h.list? configurable else some []) = some xs := by
    rw [hxs]
    cases xs <;> rfl
  have hkeys : (if (!ds.isEmpty) = true then (h.mapping? defaults).map Mapping.keys
      else none).getD [] = ds.map (·.1) := by
    rw [Heap.mapping?_of_dict? hds]
    cases ds <;> rfl
  simp only [agreementVerdict, hcontent, hgiven, ok_bind, hc, ho, hfields,
    Heap.truth_of_list? hxs, hnames, hdefaults, Heap.truth_of_dict? hds, hkeys]

end Review

namespace Options

variable {h k l : Heap} {m : Mapping} {o : Options} {fs : List (String × Value)}

theorem MadeOf.mono (ho : MadeOf h m o k) (he : k.Extends l) : MadeOf h m o l where
  fields := by
    obtain ⟨v, xs, hv, hxs, hfields⟩ := ho.fields
    exact ⟨v, xs, hv, hxs, he.list?_of_some hfields⟩
  defaults := by
    obtain ⟨v, es, hv, hes, hdefaults⟩ := ho.defaults
    exact ⟨v, es, hv, hes, he.dict?_of_some hdefaults⟩
  rules := by
    obtain ⟨v, es, hv, hes, hrules⟩ := ho.rules
    exact ⟨v, es, hv, hes, he.dict?_of_some hrules⟩
  focus := ho.focus
  threshold := ho.threshold

theorem MadeOf.shaped (ho : MadeOf h m o k) : o.Shaped k where
  fields := by
    obtain ⟨v, xs, -, -, hfields⟩ := ho.fields
    exact ⟨xs, hfields⟩
  defaults := by
    obtain ⟨v, es, -, -, hdefaults⟩ := ho.defaults
    exact ⟨es, hdefaults⟩
  rules := by
    obtain ⟨v, es, -, -, hrules⟩ := ho.rules
    exact ⟨es, hrules⟩

theorem MadeOf.accepted (ho : MadeOf h m o k) (hr : o.Recorded k l fs) (he : h.Extends l)
    (ha : Review.OptionsAccepted h m) (hheld : h.Holds o.threshold) :
    Review.OptionsAccepted l (.entries (fs.map fun f => (.text f.1, f.2))) where
  configurable := by
    obtain ⟨v, xs, hv, hxs, htexts⟩ := ha.configurable
    obtain ⟨v', xs', hv', hxs', hfields⟩ := ho.fields
    obtain ⟨xs'', hfields', hlist⟩ := hr.configurable
    obtain rfl := Except.ok.inj (hv.symm.trans hv')
    obtain rfl := Option.some.inj (hxs.symm.trans hxs')
    obtain rfl := Option.some.inj (hfields.symm.trans hfields')
    exact ⟨_, xs, Mapping.field_entries _ _, hlist, htexts⟩
  defaults := by
    obtain ⟨es, -, hdict⟩ := hr.defaults
    exact ⟨_, Mapping.field_entries _ _, Heap.isMapping_of_dict? hdict⟩
  rules := by
    obtain ⟨es, -, hdict⟩ := hr.rules
    exact ⟨_, Mapping.field_entries _ _, Heap.isMapping_of_dict? hdict⟩
  focus := by
    obtain ⟨-, hnull⟩ | ⟨xs, -, hlist⟩ := hr.focus
    · refine ⟨.null, false, ?_, rfl, fun ht => by cases ht⟩
      rw [Mapping.field_entries, hnull]
    · refine ⟨_, _, Mapping.field_entries _ _, Heap.truth_of_list? hlist, fun _ => ?_⟩
      rw [Heap.isList, hlist, Option.isSome_some]
  threshold := by
    obtain ⟨v, given, hv, hgiven, hrule⟩ := ha.threshold
    obtain rfl := Except.ok.inj (ho.threshold.symm.trans hv)
    refine ⟨_, given, Mapping.field_entries _ _, ?_, ?_⟩
    · rw [hr.threshold, he.truth_eq hheld, hgiven]
    · rw [hr.threshold]
      exact hrule

end Options

namespace Hints

variable {h k : Heap} {data : Value} {hints : Hints}

theorem shaped_of_ofValue (hrun : Hints.ofValue h data = .ok (hints, k)) : hints.Shaped k := by
  simp only [Hints.ofValue, bind_eq_ok, Prod.exists] at hrun
  obtain ⟨m, -, v₁, -, w₁, k₁, hrun₁, v₂, -, w₂, k₂, hrun₂, v₃, -, v₄, -, v₅, -,
    hrun⟩ := hrun
  cases hrun
  have he := Heap.extends_newListOr hrun₂
  obtain ⟨xs, hxs, -⟩ := Heap.newListOr_eq_ok hrun₁
  obtain ⟨ys, hys, -⟩ := Heap.newListOr_eq_ok hrun₂
  cases hxs
  cases hys
  exact
    { languages := ⟨xs, he.list?_of_some (Heap.list?_store h xs)⟩
      context := ⟨ys, Heap.list?_store _ ys⟩
      legacy := ⟨_, rfl⟩ }

end Hints

namespace Prompt

variable {h k l : Heap} {settings : ReviewSettings} {data options : Value} {hints : Option Value}
  {m : Mapping} {serial : Nat} {p : Prompt} {name default : String}

structure Restates (h : Heap) (m : Mapping) (p : Prompt) (k : Heap) : Prop where
  id : m.field "id" = .ok p.id
  name : m.field "name" = .ok p.name
  description : m.field "description" = .ok p.description
  schema : m.field "schema_version" = .ok p.schemaVersion
  version : ∃ s, p.version = .text s
  body : m.field "template" = .ok p.body
  options : ∃ c o, m.field "config" = .ok c ∧ h.mapping? c = some o ∧
    Options.MadeOf h o p.options k
  hints : ∀ hints, p.hints = some hints → hints.Shaped k
  dates : p.created.isTestable = true ∧ p.modified.isTestable = true

theorem textField_eq_ok {v : Value} (hrun : textField h m name default = .ok v) :
    ∃ s, v = .text s := by
  simp only [textField, bind_eq_ok, pure_eq_ok] at hrun
  obtain ⟨-, -, s, -, rfl⟩ := hrun
  exact ⟨s, rfl⟩

theorem textField_of_text {s : String} (hv : m.field name = .ok (.text s)) :
    textField h m name default = .ok (.text s) := by
  rw [textField_eq hv (by simp), Heap.text_text]
  rfl

theorem shaped_of_hints_eq_ok {hinted : Bool} {hints : Option Hints}
    (ht : h.truth data = .ok hinted)
    (hrun : (if hinted then (Hints.ofValue h data).map fun r => (some r.1, r.2)
      else pure (none, h)) = .ok (hints, k)) :
    h.Extends k ∧ ∀ given, hints = some given → given.Shaped k := by
  obtain ⟨-, rfl, rfl⟩ | ⟨-, given, rfl, hmade⟩ := hints_eq_ok ht hrun
  · refine ⟨.refl _, ?_⟩
    intro given hsome
    cases hsome
  · refine ⟨Hints.extends_ofValue hmade, ?_⟩
    intro given' hsome
    cases hsome
    exact Hints.shaped_of_ofValue hmade

theorem restates_of_ofValue (hl : h.Literal data) (hm : h.mapping? data = some m)
    (ha : Review.Accepted h m) (hrun : Prompt.ofValue h serial data = .ok (p, k)) :
    Restates h m p k ∧ h.Extends k := by
  simp only [Prompt.ofValue, bind_ite, bind_eq_ok, Prod.exists] at hrun
  obtain ⟨m', hm', cf, -, cg, -, b, hb, id, hid, given, hgiven, named, hnamed, name, hname, df,
    hdf, desc, hdesc, c, -, version, hversion, sv, hsv, config, hconfig, o, k₁, ho, data', -,
    hinted, htruth, hints, k₂, hhints, author, -, created, hcreated, modified, hmodified, hrun⟩ :=
    hrun
  cases hrun
  obtain rfl := Option.some.inj ((Heap.asMapping_eq_ok.1 hm').symm.trans hm)
  obtain ⟨ids, hidv, -⟩ := hl.field_of_hasText hm ha.id
  obtain ⟨names, hnamev, hink, -⟩ := hl.field_of_hasText hm ha.name
  obtain ⟨descs, hdescv, -⟩ := hl.field_of_hasText hm ha.description
  obtain ⟨schemas, hschemav, -⟩ := hl.field_of_hasText hm ha.schema
  obtain ⟨bv, hbv, -, bm, hbm, -⟩ := ha.content
  obtain ⟨configv, hconfigv, co, hco, hoptions⟩ := ha.given
  obtain rfl := Except.ok.inj (hgiven.symm.trans hnamev)
  obtain rfl := Except.ok.inj (hdf.symm.trans hdescv)
  obtain rfl := Except.ok.inj ((Heap.orElse_of_isText ⟨descs, rfl⟩).symm.trans hdesc)
  obtain rfl := Except.ok.inj (hb.symm.trans hbv)
  obtain rfl := Except.ok.inj (hconfig.symm.trans hconfigv)
  -- the texts are converted to texts, and the empty description stands for itself
  obtain rfl := Except.ok.inj ((textField_of_text hidv).symm.trans hid)
  obtain rfl := Except.ok.inj ((textField_of_text hschemav).symm.trans hsv)
  have hworded : (Value.text names).Worded := by
    refine ⟨names, rfl, ?_⟩
    intro he
    rw [he] at hink
    cases hink
  obtain rfl := Except.ok.inj (hworded.truth.symm.trans hnamed)
  rw [if_pos rfl, Heap.text_text] at hname
  cases hname
  obtain ⟨o', k', ho', hmade⟩ :=
    Options.ofValue_of_accepted (hl.unsealed.field hm hconfig) hco hoptions
  cases ho.symm.trans ho'
  have he₁ := (Options.extends_ofValue ho).1
  obtain ⟨he₂, hshaped⟩ := shaped_of_hints_eq_ok htruth hhints
  have he := he₁.trans he₂
  have hmap : h.isMapping b = true := by rw [Heap.isMapping, hbm, Option.isSome_some]
  refine ⟨?_, he⟩
  exact
    { id := hidv
      name := hnamev
      description := hdescv
      schema := hschemav
      version := textField_eq_ok hversion
      body := by rwa [if_pos (hl.unsealed.isDict_field hm hb hmap he)]
      options := ⟨config, co, hconfig, hco, hmade.mono he₂⟩
      hints := hshaped
      dates := ⟨hl.isTestable_field hm hcreated, hl.isTestable_field hm hmodified⟩ }

theorem Restates.agreementVerdict_eq (hr : Restates h m p k) (hc : h.Closed)
    (ha : Review.Accepted h m) (he : h.Extends l) (hrec : p.Recorded k l options hints) :
    Review.agreementVerdict l
        (.entries ((p.fieldsOf options hints).map fun f => (.text f.1, f.2))) =
      Review.agreementVerdict h m := by
  obtain ⟨-, -, -, -, -, -, htemplate, hgiven⟩ := lookup_base p options hints
  obtain ⟨b, hb, -, bm, hbm, -⟩ := ha.content
  obtain rfl := Except.ok.inj (hb.symm.trans hr.body)
  obtain ⟨c, o, hconfig, ho, hmade⟩ := hr.options
  obtain ⟨fs, hfs, hoptions⟩ := hrec.options
  obtain ⟨configurable, xs, hconfigurable, hxs, hfields⟩ := hmade.fields
  obtain ⟨xs', hfields', hxs'⟩ := hoptions.configurable
  obtain rfl := Option.some.inj (hfields.symm.trans hfields')
  obtain ⟨defaults, ds, hdefaults, hds, hdict⟩ := hmade.defaults
  obtain ⟨ds', hdict', hds'⟩ := hoptions.defaults
  obtain rfl := Option.some.inj (hdict.symm.trans hdict')
  have hxsHeld := hc.holds_list hxs
  have hkeysHeld : ∀ key ∈ ds.map (·.1), h.Holds key := by
    intro key hkey
    obtain ⟨e, he, rfl⟩ := List.mem_map.1 hkey
    exact (hc.holds_mapping (Heap.mapping?_of_dict? hds) e he).1
  rw [Review.agreementVerdict_eq hr.body hbm hconfig ho hconfigurable hxs hdefaults hds,
    Review.agreementVerdict_eq (field_entries htemplate) (he.mapping?_of_some hbm)
      (field_entries hgiven) hfs.mapping?_eq (Mapping.field_entries _ _) hxs'
      (Mapping.field_entries _ _) hds',
    Review.lostFields_extended he hc (Heap.holds_of_mapping? hbm) hxsHeld,
    Review.strayDefaults_extended he hc hxsHeld hkeysHeld]

/-- A record of a prompt that restates an accepted record passes the review as that did. -/
theorem Restates.passed (hr : Restates h m p k) (hc : h.Closed) (hm : h.mapping? data = some m)
    (hp : Review.Passed settings h m) (hk : h.Extends k) (he : k.Extends l)
    (hrec : p.Recorded k l options hints) :
    Review.Passed settings l
      (.entries ((p.fieldsOf options hints).map fun f => (.text f.1, f.2))) := by
  obtain ⟨hid, hname, hdescription, hcategory, hversion, hschema, htemplate, hgiven⟩ :=
    lookup_base p options hints
  have hl := hk.trans he
  have htext {name : String} {P : String → Prop} {v : Value} (ht : m.HasText name P)
      (hv : m.field name = .ok v) (hlookup : (p.fieldsOf options hints).lookup name = some v) :
      (Mapping.entries ((p.fieldsOf options hints).map fun f => (.text f.1, f.2))).HasText
        name P := by
    obtain ⟨u, s, hu, hs, hP⟩ := ht
    obtain rfl := Except.ok.inj (hu.symm.trans hv)
    exact ⟨u, s, field_entries hlookup, hs, hP⟩
  obtain ⟨b, verdict, hb, hverdict, herrors⟩ := hp.body
  obtain rfl := Except.ok.inj (hb.symm.trans hr.body)
  have hbody : Review.body settings l p.body = .ok verdict := by
    rw [Review.body_extended hl hc (hc.holds_field hm hb), hverdict]
  obtain ⟨c, o, hconfig, ho, hmade⟩ := hr.options
  obtain ⟨c', hc', o', ho', haccepted⟩ := hp.given
  obtain rfl := Except.ok.inj (hconfig.symm.trans hc')
  obtain rfl := Option.some.inj (ho.symm.trans ho')
  obtain ⟨fs, hfs, hoptions⟩ := hrec.options
  obtain ⟨s, hs⟩ := hr.version
  obtain ⟨-, hcreated, hmodified⟩ := lookup_last p options hints
  exact
    { id := htext hp.id hr.id hid
      name := htext hp.name hr.name hname
      description := htext hp.description hr.description hdescription
      category := ⟨_, p.category, field_entries hcategory, by cases p.category <;> rfl⟩
      schema := htext hp.schema hr.schema hschema
      version := ⟨_, field_entries hversion, .inr ⟨s, by rw [hs]; rfl⟩⟩
      content := ⟨_, field_entries htemplate, Review.body_accepts hbody herrors⟩
      given := ⟨_, field_entries hgiven, _, hfs.mapping?_eq,
        hmade.accepted hoptions hl haccepted (hc.holds_field ho hmade.threshold)⟩
      dates := by
        refine ⟨_, _, Mapping.field_entries _ _, Mapping.field_entries _ _, ?_⟩
        rw [hcreated, hmodified]
        exact hr.dates
      body := ⟨_, verdict, field_entries htemplate, hbody, herrors⟩
      agreement := by
        rw [hr.agreementVerdict_eq hc hp.toAccepted hl hrec]
        exact hp.agreement }

/-- A prompt is made of a record, and a review of the prompt has no error to report. -/
def AcceptedAgain (settings : ReviewSettings) (h : Heap) (serial : Nat) (data : Value) : Prop :=
  ∃ p k w, Prompt.ofValue h serial data = .ok (p, k) ∧ Review.prompt settings k p = .ok w ∧
    w.errors = []

/-- The members that a review does not look into can be read: the hints, where there are any, and
the areas of focus. -/
structure Readable (h : Heap) (m : Mapping) : Prop where
  hints : ∀ v, m.field "metadata" = .ok v → h.truthy v = true → Hints.Readable h v
  focus : ∀ c o v, m.field "config" = .ok c → h.mapping? c = some o →
    o.field "focus_areas" = .ok v → v = .null ∨ ∃ xs, h.iterate v = .ok xs

theorem Restates.shaped (hr : Restates h m p k) : p.Shaped k where
  options := by
    obtain ⟨c, o, -, -, hmade⟩ := hr.options
    exact hmade.shaped
  hints := hr.hints

theorem Restates.focused_iff (hr : Restates h m p k) (hc : h.Closed) (hk : h.Extends k) :
    p.options.Focused k ↔ ∀ c o v, m.field "config" = .ok c → h.mapping? c = some o →
      o.field "focus_areas" = .ok v → v = .null ∨ ∃ xs, h.iterate v = .ok xs := by
  obtain ⟨c, o, hconfig, ho, hmade⟩ := hr.options
  rw [Options.Focused, hk.iterate_eq (hc.holds_field ho hmade.focus)]
  constructor
  · intro hf c' o' v hc' ho' hv
    obtain rfl := Except.ok.inj (hconfig.symm.trans hc')
    obtain rfl := Option.some.inj (ho.symm.trans ho')
    obtain rfl := Except.ok.inj (hmade.focus.symm.trans hv)
    exact hf
  · intro hf
    exact hf c o _ hconfig ho hmade.focus

theorem Restates.holds_focus (hr : Restates h m p k) (hc : h.Closed) (hk : h.Extends k) :
    k.Holds p.options.focus := by
  obtain ⟨c, o, -, ho, hmade⟩ := hr.options
  exact hk.holds (hc.holds_field ho hmade.focus)

/-- If a review has no error to report on a record of data, a prompt is made of it and accepted in
its turn if and only if the members that the review does not look into can be read. -/
theorem acceptedAgain_iff (serial : Nat) {w : Verdict} (hc : h.Closed) (hl : h.Literal data)
    (hreview : Review.record settings h data = .ok w) (hw : w.errors = []) :
    ∃ m, h.mapping? data = some m ∧ (AcceptedAgain settings h serial data ↔ Readable h m) := by
  obtain ⟨m, hm, hp⟩ := Review.record_passes hreview hw
  have hmade : (∃ p k, Prompt.ofValue h serial data = .ok (p, k)) ↔
      ∀ v, m.field "metadata" = .ok v → h.truthy v = true → Hints.Readable h v :=
    isOk_ofValue_iff hc hl hm hp.toAccepted
  refine ⟨m, hm, ?_⟩
  constructor
  · intro ha
    obtain ⟨p, k, w', hrun, hagain, -⟩ := ha
    obtain ⟨hr, hk⟩ := restates_of_ofValue hl hm hp.toAccepted hrun
    simp only [Review.prompt, bind_eq_ok] at hagain
    obtain ⟨⟨v, l⟩, hrecord, -⟩ := hagain
    have hf := (isOk_toValue_iff hr.shaped (hr.holds_focus hc hk)).1 ⟨v, l, hrecord⟩
    exact ⟨hmade.1 ⟨p, k, hrun⟩, (hr.focused_iff hc hk).1 hf⟩
  · intro hreadable
    obtain ⟨p, k, hrun⟩ := hmade.2 hreadable.hints
    obtain ⟨hr, hk⟩ := restates_of_ofValue hl hm hp.toAccepted hrun
    have hf := (hr.focused_iff hc hk).2 hreadable.focus
    obtain ⟨v, l, options, hints, hrecord, he, hv, hrec⟩ := toValue_of_shaped hr.shaped hf
    obtain ⟨w', hagain, hw'⟩ := Review.record_accepts_iff.2
      ⟨_, hv.mapping?_eq, hr.passed hc hm hp hk he hrec⟩
    refine ⟨p, k, w', hrun, ?_, hw'⟩
    rw [Review.prompt, hrecord]
    exact hagain

theorem letter_literal : letterHeap.Literal (.ref ⟨0⟩) :=
  .of_elements letter_reviewed.unsealed (by decide)

/-- The letter has no hints and no areas of focus, and so is accepted again. -/
theorem acceptedAgain_letter : AcceptedAgain {} letterHeap 0 (.ref ⟨0⟩) := by
  obtain ⟨w, hreview, hw⟩ := letter_reviewed.review
  obtain ⟨m, hm, hiff⟩ := acceptedAgain_iff 0 letter_reviewed.closed letter_literal hreview hw
  apply hiff.2
  cases hm
  constructor
  · intro v hv ht
    cases hv
    cases ht
  · intro c o v hc ho hv
    cases hc
    cases ho
    cases hv
    exact .inl rfl

def vagueHeap : Heap :=
  letterHeap.set ⟨5⟩ (.dict [(.text "configurable_fields", .ref ⟨6⟩),
    (.text "default_values", .ref ⟨7⟩), (.text "validation_rules", .ref ⟨8⟩),
    (.text "focus_areas", .bool false)])

def vaguePrompt : Prompt :=
  { letterPrompt with options := ⟨.ref ⟨9⟩, .ref ⟨10⟩, .ref ⟨11⟩, .bool false, .null⟩ }

def vagueMade : Heap where
  nodes := vagueHeap.nodes ++ #[.list [], .dict [], .dict []]

/-- False is accepted for the areas of focus, and then the prompt cannot be turned into a record. -/
theorem not_acceptedAgain_vague : vagueHeap.Closed ∧ vagueHeap.Literal (.ref ⟨0⟩) ∧
    Review.record {} vagueHeap (.ref ⟨0⟩) = .ok .clean ∧
    Prompt.ofValue vagueHeap 0 (.ref ⟨0⟩) = .ok (vaguePrompt, vagueMade) ∧
    Review.prompt {} vagueMade vaguePrompt = .error (.notIterable "bool") ∧
    ¬ AcceptedAgain {} vagueHeap 0 (.ref ⟨0⟩) := by
  have hmade : Prompt.ofValue vagueHeap 0 (.ref ⟨0⟩) = .ok (vaguePrompt, vagueMade) := by
    decide +kernel
  have hagain : Review.prompt {} vagueMade vaguePrompt = .error (.notIterable "bool") := by
    decide +kernel
  have hordinary : vagueHeap.Ordinary (.ref ⟨0⟩) := .of_elements (by decide)
  refine ⟨by decide, .of_elements hordinary.unsealed (by decide), by decide +kernel, hmade, hagain,
    ?_⟩
  intro ha
  obtain ⟨p, k, w, hrun, hw, -⟩ := ha
  cases hmade.symm.trans hrun
  cases hagain.symm.trans hw

end Prompt

end Promptbook

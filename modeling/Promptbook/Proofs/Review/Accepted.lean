import Promptbook.Proofs.Heap.Parts
import Promptbook.Proofs.Outcome
import Promptbook.Review.Record

namespace Promptbook

theorem Verdict.accepts_iff {w : Verdict} : w.accepts = true ↔ w.errors = [] := by
  rw [accepts, List.isEmpty_iff]

@[simp] theorem Verdict.errors_errorIf_eq_nil {c : Bool} {message : String} :
    (errorIf c message).errors = [] ↔ c = false := by
  cases c <;> simp

def Mapping.HasText (m : Mapping) (name : String) (P : String → Prop) : Prop :=
  ∃ v s, m.field name = .ok v ∧ v.asText? = some s ∧ P s

namespace Review

variable {settings : ReviewSettings} {h : Heap} {m : Mapping} {v : Value} {w : Verdict}
  {names : List String} {message : String} {rule : String → Verdict} {P : String → Prop}

theorem require_accepts (hr : require m names = .ok w) (hw : w.errors = []) :
    ∀ name ∈ names, ∃ v, m.field name = .ok v ∧ v ≠ .null := by
  induction names generalizing w with
  | nil => exact List.forall_mem_nil _
  | cons name names ih =>
    simp only [require, bind_eq_ok, pure_eq_ok] at hr
    obtain ⟨v, hv, rest, hrest, rfl⟩ := hr
    simp only [Verdict.errors_append, List.append_eq_nil_iff, Verdict.errors_errorIf_eq_nil,
      decide_eq_false_iff_not] at hw
    exact List.forall_mem_cons.2 ⟨⟨v, hv, hw.1⟩, ih hrest hw.2⟩

theorem require_of_given (hr : ∀ name ∈ names, ∃ v, m.field name = .ok v ∧ v ≠ .null) :
    require m names = .ok .clean := by
  induction names with
  | nil => rfl
  | cons name names ih =>
    rw [List.forall_mem_cons] at hr
    obtain ⟨⟨v, hv, hne⟩, hr⟩ := hr
    simp only [require, hv, ih hr, ok_bind, hne, decide_false]
    rfl

theorem ne_null_of_asText {s : String} (hs : v.asText? = some s) : v ≠ .null := by
  intro hnull
  rw [hnull] at hs
  cases hs

theorem textRule_of_text {s : String} (hs : v.asText? = some s) :
    textRule v message rule = rule s := by
  cases v with
  | text u | kind d | category c =>
    obtain rfl := Option.some.inj hs
    rfl
  | _ => cases hs

theorem textRule_accepts (hw : (textRule v message rule).errors = []) :
    v = .null ∨ ∃ s, v.asText? = some s ∧ (rule s).errors = [] := by
  by_cases hv : v = .null
  · exact .inl hv
  · right
    cases ht : v.asText? with
    | none => simp [textRule, ht] at hw
    | some s =>
      simp only [textRule, ht] at hw
      exact ⟨s, rfl, hw⟩

theorem hasText_of_rule {name : String} (hr : ∃ u, m.field name = .ok u ∧ u ≠ .null)
    (hv : m.field name = .ok v) (hw : (textRule v message rule).errors = [])
    (hP : ∀ s, (rule s).errors = [] → P s) : m.HasText name P := by
  obtain ⟨u, hu, hne⟩ := hr
  obtain rfl := Except.ok.inj (hu.symm.trans hv)
  obtain rfl | ⟨s, hs, hw⟩ := textRule_accepts hw
  · exact (hne rfl).elim
  · exact ⟨u, s, hu, hs, hP s hw⟩

section Body

structure BodyAccepted (h : Heap) (m : Mapping) : Prop where
  task : m.HasText "task" fun s => Text.hasInk s = true
  instructions : m.HasText "instructions" fun s => Text.hasInk s = true
  context : ∃ v, m.field "context" = .ok v ∧ h.isMapping v = true
  format : ∃ v, m.field "output_format" = .ok v ∧ h.isMapping v = true
  declared : ∃ v, m.field "variables" = .ok v ∧ h.isList v = true

theorem ink_of_longText {limit : Nat} {name verb : String} {s : String}
    (hw : (Verdict.join [
      .errorIf (!Text.hasInk s) s!"Template {name} cannot be empty",
      .errorIf (limit < s.length) s!"Template {name} {verb} too long (max {limit} characters)"]
        ).errors = []) : Text.hasInk s = true := by
  simp at hw
  exact hw.1

theorem contextVerdict_accepts {limit : Nat} (hr : contextVerdict h limit v = .ok w)
    (hw : w.errors = []) : v = .null ∨ h.isMapping v = true := by
  by_cases hv : v = .null
  · exact .inl hv
  · right
    rw [contextVerdict, if_neg hv] at hr
    by_cases hm : h.isMapping v = true
    · exact hm
    · rw [if_pos (by simpa using hm)] at hr
      cases hr
      simp at hw

theorem formatVerdict_accepts (hr : formatVerdict h v = .ok w) (hw : w.errors = []) :
    v = .null ∨ h.isMapping v = true := by
  by_cases hv : v = .null
  · exact .inl hv
  · right
    cases hm : h.mapping? v with
    | none =>
      simp only [formatVerdict, hm, Except.ok.injEq] at hr
      rw [← hr] at hw
      simp at hw
    | some m => rw [Heap.isMapping, hm, Option.isSome_some]

theorem variablesVerdict_accepts {limit : Nat}
    (hw : (variablesVerdict h limit v).errors = []) : v = .null ∨ h.isList v = true := by
  by_cases hv : v = .null
  · exact .inl hv
  · right
    cases hl : h.list? v with
    | none => simp [variablesVerdict, hl] at hw
    | some xs => rw [Heap.isList, hl, Option.isSome_some]

theorem body_accepts (hr : body settings h v = .ok w) (hw : w.errors = []) :
    h.truthy v = true ∧ ∃ m, h.mapping? v = some m ∧ BodyAccepted h m := by
  rw [body] at hr
  split at hr
  · next m hm ht =>
    simp only [bind_eq_ok, pure_eq_ok] at hr
    obtain ⟨required, hreq, fields, hfields, references, -, rfl⟩ := hr
    simp only [Verdict.errors_join, List.flatMap_cons, List.flatMap_nil, List.append_nil,
      List.append_eq_nil_iff] at hw
    obtain ⟨hwreq, hwfields, -⟩ := hw
    have hreq := require_accepts hreq hwreq
    simp only [bodyFieldsVerdict, bind_eq_ok, pure_eq_ok] at hfields
    obtain ⟨task, htask, instructions, hinstructions, context, hcontext, cv, hcv, format, hformat,
      fv, hfv, declared, hdeclared, language, -, given, -, rfl⟩ := hfields
    simp only [Verdict.errors_join, List.flatMap_cons, List.flatMap_nil, List.append_nil,
      List.append_eq_nil_iff] at hwfields
    obtain ⟨hwtask, hwinstructions, hwcontext, hwformat, hwdeclared, -⟩ := hwfields
    have hgiven : ∀ name u, name ∈ bodyFields → m.field name = .ok u → u ≠ .null := by
      intro name u hn hu
      obtain ⟨u', hu', hne⟩ := hreq name hn
      exact Except.ok.inj (hu'.symm.trans hu) ▸ hne
    refine ⟨ht, m, hm, ?_, ?_, ⟨context, hcontext, ?_⟩, ⟨format, hformat, ?_⟩,
      ⟨declared, hdeclared, ?_⟩⟩
    · exact hasText_of_rule (hreq "task" (by decide)) htask hwtask fun s hs => ink_of_longText hs
    · exact hasText_of_rule (hreq "instructions" (by decide)) hinstructions hwinstructions
        fun s hs => ink_of_longText hs
    · exact (contextVerdict_accepts hcv hwcontext).resolve_left (hgiven _ _ (by decide) hcontext)
    · exact (formatVerdict_accepts hfv hwformat).resolve_left (hgiven _ _ (by decide) hformat)
    · exact (variablesVerdict_accepts hwdeclared).resolve_left (hgiven _ _ (by decide) hdeclared)
  · simp only [bind_eq_ok, pure_eq_ok] at hr
    obtain ⟨_, -, rfl⟩ := hr
    simp at hw

end Body

section Options

structure OptionsAccepted (h : Heap) (m : Mapping) : Prop where
  configurable : ∃ v xs, m.field "configurable_fields" = .ok v ∧ h.list? v = some xs ∧
    xs.all isText = true
  defaults : ∃ v, m.field "default_values" = .ok v ∧ h.isMapping v = true
  rules : ∃ v, m.field "validation_rules" = .ok v ∧ h.isMapping v = true
  focus : ∃ v given, m.field "focus_areas" = .ok v ∧ h.truth v = .ok given ∧
    (given = true → h.isList v = true)
  threshold : ∃ v given, m.field "severity_threshold" = .ok v ∧ h.truth v = .ok given ∧
    (given = true → isText v = true)

theorem configurableVerdict_accepts (hw : (configurableVerdict h v).errors = []) :
    v = .null ∨ ∃ xs, h.list? v = some xs ∧ xs.all isText = true := by
  by_cases hv : v = .null
  · exact .inl hv
  · right
    cases hl : h.list? v with
    | none => simp [configurableVerdict, hl] at hw
    | some xs =>
      simp only [configurableVerdict, hl, Verdict.errors_errorIf_eq_nil, Bool.not_eq_false'] at hw
      exact ⟨xs, rfl, hw⟩

theorem configurableVerdict_of_texts {xs : List Value} (hl : h.list? v = some xs)
    (hxs : xs.all isText = true) : configurableVerdict h v = .clean := by
  cases v with
  | ref r =>
    simp only [configurableVerdict, hl, hxs]
    rfl
  | _ => cases hl

theorem mappingVerdict_accepts {name : String} (hw : (mappingVerdict h name v).errors = []) :
    v = .null ∨ h.isMapping v = true := by
  rw [mappingVerdict, Verdict.errors_errorIf_eq_nil] at hw
  by_cases hv : v = .null
  · exact .inl hv
  · exact .inr (by simpa [hv] using hw)

theorem options_accepts (hr : options h v = .ok w) (hw : w.errors = []) :
    ∃ m, h.mapping? v = some m ∧ OptionsAccepted h m := by
  rw [options] at hr
  split at hr
  · cases hr
    simp at hw
  · next m hm =>
    simp only [bind_eq_ok, pure_eq_ok] at hr
    obtain ⟨required, hreq, configurable, hconfigurable, defaults, hdefaults, rules, hrules, focus,
      hfocus, focused, hfocused, threshold, hthreshold, limited, hlimited, rfl⟩ := hr
    simp only [Verdict.errors_join, List.flatMap_cons, List.flatMap_nil, List.append_nil,
      List.append_eq_nil_iff] at hw
    obtain ⟨hwreq, hwconfigurable, hwdefaults, hwrules, hwfocus, hwthreshold⟩ := hw
    have hgiven : ∀ name u, name ∈ optionFields → m.field name = .ok u → u ≠ .null := by
      intro name u hn hu
      obtain ⟨u', hu', hne⟩ := require_accepts hreq hwreq name hn
      exact Except.ok.inj (hu'.symm.trans hu) ▸ hne
    obtain ⟨xs, hl, hxs⟩ := (configurableVerdict_accepts hwconfigurable).resolve_left
      (hgiven _ _ (by decide) hconfigurable)
    refine ⟨m, hm, ⟨configurable, xs, hconfigurable, hl, hxs⟩, ⟨defaults, hdefaults, ?_⟩,
      ⟨rules, hrules, ?_⟩, ⟨focus, focused, hfocus, hfocused, ?_⟩,
      ⟨threshold, limited, hthreshold, hlimited, ?_⟩⟩
    · exact (mappingVerdict_accepts hwdefaults).resolve_left (hgiven _ _ (by decide) hdefaults)
    · exact (mappingVerdict_accepts hwrules).resolve_left (hgiven _ _ (by decide) hrules)
    · simpa using hwfocus
    · simpa using hwthreshold

theorem ne_null_of_isMapping (hv : h.isMapping v = true) : v ≠ .null := by
  intro hnull
  rw [hnull] at hv
  cases hv

theorem options_of_accepted (hm : h.mapping? v = some m) (ho : OptionsAccepted h m) :
    options h v = .ok .clean := by
  obtain ⟨configurable, xs, hconfigurable, hl, hxs⟩ := ho.configurable
  obtain ⟨defaults, hdefaults, hdefaultsMap⟩ := ho.defaults
  obtain ⟨rules, hrules, hrulesMap⟩ := ho.rules
  obtain ⟨focus, focused, hfocus, hfocused, hfocusRule⟩ := ho.focus
  obtain ⟨threshold, limited, hthreshold, hlimited, hthresholdRule⟩ := ho.threshold
  have hgiven : ∀ name ∈ optionFields, ∃ v, m.field name = .ok v ∧ v ≠ .null := by
    simp only [optionFields, List.forall_mem_cons]
    refine ⟨⟨configurable, hconfigurable, ?_⟩, ⟨defaults, hdefaults, ?_⟩, ⟨rules, hrules, ?_⟩,
      List.forall_mem_nil _⟩
    · intro hnull
      rw [hnull] at hl
      cases hl
    · exact ne_null_of_isMapping hdefaultsMap
    · exact ne_null_of_isMapping hrulesMap
  have hfocusRule : (focused && !h.isList focus) = false := by simpa using hfocusRule
  have hthresholdRule : (limited && !isText threshold) = false := by simpa using hthresholdRule
  simp only [options, hm, require_of_given hgiven, hconfigurable, hdefaults, hrules, hfocus,
    hfocused, hthreshold, hlimited, ok_bind, configurableVerdict_of_texts hl hxs, mappingVerdict,
    hdefaultsMap, hrulesMap, hfocusRule, hthresholdRule, Bool.not_true, Bool.and_false]
  rfl

end Options

section Record

structure Accepted (h : Heap) (m : Mapping) : Prop where
  id : m.HasText "id" fun s => isIdentifier s.toList = true ∧ s.length ≤ idLimit
  name : m.HasText "name" fun s => Text.hasInk s = true ∧ s.length ≤ nameLimit
  description : m.HasText "description" fun _ => True
  category : ∃ v c, m.field "category" = .ok v ∧ v.toCategory? = some c
  schema : m.HasText "schema_version" fun _ => True
  version : ∃ v, m.field "version" = .ok v ∧ (v = .null ∨ ∃ s, v.asText? = some s)
  content : ∃ v, m.field "template" = .ok v ∧ h.truthy v = true ∧
    ∃ b, h.mapping? v = some b ∧ BodyAccepted h b
  given : ∃ v, m.field "config" = .ok v ∧ ∃ o, h.mapping? v = some o ∧ OptionsAccepted h o
  dates : ∃ created modified, m.field "created_date" = .ok created ∧
    m.field "last_modified" = .ok modified ∧ created.isTestable = true ∧ modified.isTestable = true

theorem categoryVerdict_accepts (hr : categoryVerdict h v = .ok w) (hw : w.errors = []) :
    v = .null ∨ ∃ c, v.toCategory? = some c := by
  rw [categoryVerdict] at hr
  split at hr
  · next hv =>
    rw [Bool.or_eq_true, decide_eq_true_eq, Option.isSome_iff_exists] at hv
    exact hv
  · simp only [bind_eq_ok, pure_eq_ok] at hr
    obtain ⟨shown, -, rfl⟩ := hr
    simp at hw

theorem schemaVerdict_accepts {versions : List String} (hr : schemaVerdict versions h v = .ok w)
    (hw : w.errors = []) : v = .null ∨ ∃ s, v.asText? = some s := by
  by_cases hv : v = .null
  · exact .inl hv
  · right
    cases ht : v.asText? with
    | none =>
      simp only [schemaVerdict, ht, Except.ok.injEq] at hr
      rw [← hr] at hw
      simp at hw
    | some s => exact ⟨s, rfl⟩

theorem testable_of_dateVerdict {label : String} (hr : dateVerdict h label v = .ok w) :
    v.isTestable = true := by
  simp only [dateVerdict, bind_eq_ok] at hr
  obtain ⟨given, hgiven, -⟩ := hr
  exact (Heap.truth_eq_ok.1 hgiven).1

theorem unlessNull_eq {f : Value → Except Fault Verdict} (hv : v ≠ .null) :
    unlessNull v f = f v := by
  rw [unlessNull, if_neg hv]

structure Passed (settings : ReviewSettings) (h : Heap) (m : Mapping) : Prop
    extends Accepted h m where
  body : ∃ v w, m.field "template" = .ok v ∧ Review.body settings h v = .ok w ∧ w.errors = []
  agreement : ∃ w, agreementVerdict h m = .ok w

theorem ne_null_of_required {names : List String} {name : String} {u : Value}
    (hreq : ∀ name ∈ names, ∃ u, m.field name = .ok u ∧ u ≠ .null) (hn : name ∈ names)
    (hu : m.field name = .ok u) : u ≠ .null := by
  obtain ⟨u', hu', hne⟩ := hreq name hn
  exact Except.ok.inj (hu'.symm.trans hu) ▸ hne

theorem ownFields_accepts (hreq : ∀ name ∈ recordFields, ∃ u, m.field name = .ok u ∧ u ≠ .null)
    (hr : ownFieldsVerdict settings h m = .ok w) (hw : w.errors = [])
    (hcontent : ∃ v, m.field "template" = .ok v ∧ h.truthy v = true ∧
      ∃ b, h.mapping? v = some b ∧ BodyAccepted h b)
    (hgiven : ∃ v, m.field "config" = .ok v ∧ ∃ o, h.mapping? v = some o ∧ OptionsAccepted h o) :
    Accepted h m := by
  simp only [ownFieldsVerdict, bind_eq_ok, pure_eq_ok] at hr
  obtain ⟨id, hid, name, hname, description, hdescription, category, hcategory, cv, hcv, schema,
    hschema, sv, hsv, version, hversion, created, hcreated, cdv, hcdv, modified, hmodified, mdv,
    hmdv, rfl⟩ := hr
  simp only [Verdict.errors_join, List.flatMap_cons, List.flatMap_nil, List.append_nil,
    List.append_eq_nil_iff] at hw
  obtain ⟨hwid, hwname, hwdescription, hwcategory, hwschema, hwversion, -⟩ := hw
  refine ⟨?_, ?_, ?_, ⟨category, ?_⟩, ?_, ⟨version, hversion, ?_⟩, hcontent, hgiven,
    ⟨created, modified, hcreated, hmodified, testable_of_dateVerdict hcdv,
      testable_of_dateVerdict hmdv⟩⟩
  · apply hasText_of_rule (hreq "id" (by decide)) hid hwid
    intro s hs
    simpa using hs
  · apply hasText_of_rule (hreq "name" (by decide)) hname hwname
    intro s hs
    simp at hs
    exact ⟨hs.2, hs.1⟩
  · exact hasText_of_rule (hreq "description" (by decide)) hdescription hwdescription
      fun _ _ => trivial
  · obtain rfl | ⟨c, hc⟩ := categoryVerdict_accepts hcv hwcategory
    · exact (ne_null_of_required hreq (by decide) hcategory rfl).elim
    · exact ⟨c, hcategory, hc⟩
  · obtain rfl | ⟨s, hs⟩ := schemaVerdict_accepts hsv hwschema
    · exact (ne_null_of_required hreq (by decide) hschema rfl).elim
    · exact ⟨schema, s, hschema, hs, trivial⟩
  · obtain hv | ⟨s, hs, -⟩ := textRule_accepts hwversion
    · exact .inl hv
    · exact .inr ⟨s, hs⟩

theorem record_passes (hr : record settings h v = .ok w) (hw : w.errors = []) :
    ∃ m, h.mapping? v = some m ∧ Passed settings h m := by
  rw [record] at hr
  split at hr
  · next m hm ht =>
    simp only [bind_eq_ok, pure_eq_ok] at hr
    obtain ⟨required, hreq, own, hown, template, htemplate, content, hcontent, config, hconfig,
      given, hgiven, agreement, hagreement, rfl⟩ := hr
    simp only [Verdict.errors_join, List.flatMap_cons, List.flatMap_nil, List.append_nil,
      List.append_eq_nil_iff] at hw
    obtain ⟨hwreq, hwown, hwcontent, hwgiven, -⟩ := hw
    have hreq := require_accepts hreq hwreq
    rw [unlessNull_eq (ne_null_of_required hreq (by decide) htemplate)] at hcontent
    rw [unlessNull_eq (ne_null_of_required hreq (by decide) hconfig)] at hgiven
    have haccepted := ownFields_accepts hreq hown hwown
      ⟨template, htemplate, body_accepts hcontent hwcontent⟩
      ⟨config, hconfig, options_accepts hgiven hwgiven⟩
    exact ⟨m, hm, haccepted, ⟨template, content, htemplate, hcontent, hwcontent⟩,
      ⟨agreement, hagreement⟩⟩
  · simp only [bind_eq_ok, pure_eq_ok] at hr
    obtain ⟨_, -, rfl⟩ := hr
    simp at hw

theorem record_accepts (hr : record settings h v = .ok w) (hw : w.errors = []) :
    ∃ m, h.mapping? v = some m ∧ Accepted h m := by
  obtain ⟨m, hm, hp⟩ := record_passes hr hw
  exact ⟨m, hm, hp.toAccepted⟩

theorem lostFields_errors {content : Value} {vs : List Value}
    (hr : lostFields h content vs = .ok w) : w.errors = [] := by
  induction vs generalizing w with
  | nil =>
    cases hr
    rfl
  | cons v vs ih =>
    rw [lostFields] at hr
    cases hs : v.asText? with
    | none =>
      simp only [hs, bind_eq_ok, pure_eq_ok] at hr
      obtain ⟨here, rfl, rest, hrest, rfl⟩ := hr
      exact ih hrest
    | some s =>
      simp only [hs, bind_eq_ok, pure_eq_ok] at hr
      obtain ⟨found, -, shown, -, here, rfl, rest, hrest, rfl⟩ := hr
      rw [Verdict.errors_append, Verdict.errors_warnIf, ih hrest, List.append_nil]

theorem strayDefaults_errors {names keys : List Value}
    (hr : strayDefaults h names keys = .ok w) : w.errors = [] := by
  induction keys generalizing w with
  | nil =>
    cases hr
    rfl
  | cons key keys ih =>
    simp only [strayDefaults, bind_eq_ok] at hr
    obtain ⟨among, -, hr⟩ := hr
    split at hr
    · simp only [bind_eq_ok, pure_eq_ok] at hr
      obtain ⟨here, rfl, rest, hrest, rfl⟩ := hr
      exact ih hrest
    · simp only [bind_eq_ok, pure_eq_ok] at hr
      obtain ⟨shown, -, here, rfl, rest, hrest, rfl⟩ := hr
      rw [Verdict.errors_append, Verdict.errors_warning, ih hrest, List.append_nil]

theorem agreementVerdict_errors (hr : agreementVerdict h m = .ok w) : w.errors = [] := by
  simp only [agreementVerdict, bind_eq_ok] at hr
  obtain ⟨content, -, given, -, hr⟩ := hr
  split at hr
  · simp only [bind_eq_ok] at hr
    obtain ⟨configurable, -, chosen, -, hr⟩ := hr
    split at hr
    · cases hr
      rfl
    · simp only [bind_eq_ok, pure_eq_ok] at hr
      obtain ⟨lost, hlost, defaults, -, given, -, stray, hstray, rfl⟩ := hr
      rw [Verdict.errors_append, lostFields_errors hlost, strayDefaults_errors hstray,
        List.append_nil]
  · cases hr
    rfl

theorem schemaVerdict_of_text {s : String} (h : Heap) (versions : List String)
    (hs : v.asText? = some s) : ∃ w, schemaVerdict versions h v = .ok w ∧ w.errors = [] := by
  cases v with
  | text u | kind d | category c =>
    simp only [schemaVerdict, Value.asText?]
    split
    · exact ⟨_, rfl, rfl⟩
    · exact ⟨_, rfl, rfl⟩
  | _ => cases hs

theorem Accepted.required (ha : Accepted h m) : require m recordFields = .ok .clean := by
  obtain ⟨id, ids, hid, hids, -⟩ := ha.id
  obtain ⟨name, names, hname, hnames, -⟩ := ha.name
  obtain ⟨description, ds, hdescription, hds, -⟩ := ha.description
  obtain ⟨category, c, hcategory, hc⟩ := ha.category
  obtain ⟨schema, ss, hschema, hss, -⟩ := ha.schema
  obtain ⟨template, htemplate, ht, -⟩ := ha.content
  obtain ⟨config, hconfig, o, ho, -⟩ := ha.given
  apply require_of_given
  simp only [recordFields, List.forall_mem_cons]
  refine ⟨⟨id, hid, ne_null_of_asText hids⟩, ⟨name, hname, ne_null_of_asText hnames⟩,
    ⟨description, hdescription, ne_null_of_asText hds⟩, ⟨category, hcategory, ?_⟩,
    ⟨template, htemplate, ?_⟩, ⟨config, hconfig, ?_⟩, ⟨schema, hschema, ne_null_of_asText hss⟩,
    List.forall_mem_nil _⟩
  · intro he
    rw [he] at hc
    cases hc
  · intro he
    rw [he] at ht
    cases ht
  · intro he
    rw [he] at ho
    cases ho

theorem Accepted.ownFields (ha : Accepted h m) (settings : ReviewSettings) :
    ∃ w, ownFieldsVerdict settings h m = .ok w ∧ w.errors = [] := by
  obtain ⟨id, ids, hid, hids, hidentifier, hidLength⟩ := ha.id
  obtain ⟨name, names, hname, hnames, hink, hnameLength⟩ := ha.name
  obtain ⟨description, ds, hdescription, hds, -⟩ := ha.description
  obtain ⟨category, c, hcategory, hc⟩ := ha.category
  obtain ⟨schema, ss, hschema, hss, -⟩ := ha.schema
  obtain ⟨version, hversion, hversionText⟩ := ha.version
  obtain ⟨created, modified, hcreated, hmodified, hcreatedTest, hmodifiedTest⟩ := ha.dates
  obtain ⟨sv, hsv, hsvErrors⟩ := schemaVerdict_of_text h settings.versions hss
  have hcv : categoryVerdict h category = .ok .clean := by
    rw [categoryVerdict, if_pos (by rw [hc]; exact Bool.or_true _)]
  have hversionErrors : (versionVerdict version).errors = [] := by
    obtain rfl | ⟨s, hs⟩ := hversionText
    · rfl
    · rw [versionVerdict, textRule_of_text hs, Verdict.errors_warnIf]
  simp only [ownFieldsVerdict, hid, hname, hdescription, hcategory, hschema, hversion, hcreated,
    hmodified, hcv, hsv, dateVerdict, Heap.truth_eq hcreatedTest, Heap.truth_eq hmodifiedTest,
    ok_bind, pure_bind]
  refine ⟨_, rfl, ?_⟩
  simp [idVerdict, nameVerdict, descriptionVerdict, textRule_of_text hids,
    textRule_of_text hnames, textRule_of_text hds, hversionErrors, hsvErrors, hidentifier,
    hidLength, hink, hnameLength]

/-- A review has no error to report exactly on the records that have what it looks for. -/
theorem record_accepts_iff : (∃ w, record settings h v = .ok w ∧ w.errors = []) ↔
    ∃ m, h.mapping? v = some m ∧ Passed settings h m := by
  constructor
  · intro hr
    obtain ⟨w, hr, hw⟩ := hr
    exact record_passes hr hw
  · intro hp
    obtain ⟨m, hm, hp⟩ := hp
    obtain ⟨template, content, htemplate, hcontent, hcontentErrors⟩ := hp.body
    obtain ⟨config, hconfig, o, ho, hoptions⟩ := hp.given
    obtain ⟨own, hown, hownErrors⟩ := hp.ownFields settings
    obtain ⟨agreement, hagreement⟩ := hp.agreement
    have htemplateGiven : template ≠ .null := by
      intro he
      rw [he] at hcontent
      exact Bool.false_ne_true (body_accepts hcontent hcontentErrors).1
    have hconfigGiven : config ≠ .null := by
      intro he
      rw [he] at ho
      cases ho
    have ht : h.truthy v = true := Heap.truthy_of_field hm htemplate htemplateGiven
    simp only [record, hm, ht, hp.required, hown, htemplate, hconfig, hagreement,
      unlessNull_eq htemplateGiven, unlessNull_eq hconfigGiven, hcontent,
      options_of_accepted ho hoptions, ok_bind]
    refine ⟨_, rfl, ?_⟩
    simp only [Verdict.errors_join, List.flatMap_cons, List.flatMap_nil, Verdict.errors_clean,
      hownErrors, hcontentErrors, agreementVerdict_errors hagreement, List.append_nil]

end Record

end Review

end Promptbook

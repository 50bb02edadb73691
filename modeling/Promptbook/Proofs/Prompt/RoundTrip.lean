import Promptbook.Proofs.Prompt.Made
import Promptbook.Proofs.Prompt.Parts
import Promptbook.Proofs.Prompt.Recorded

namespace Promptbook

namespace Heap

def IsTexts (h : Heap) (v : Value) : Prop :=
  ∃ xs, h.list? v = some xs ∧ ∀ x ∈ xs, x.IsText

def IsTable (h : Heap) (v : Value) : Prop :=
  ∃ es : Entries Value, h.dict? v = some es ∧ es.Texted

end Heap

namespace Hints

variable {h k : Heap} {m : Hints}

structure Typed (h : Heap) (m : Hints) : Prop where
  languages : h.IsTexts m.languages
  context : h.IsTexts m.context
  notes : m.notes = .null ∨ m.notes.IsText
  legacy : ∃ b, m.legacy = .bool b

theorem Typed.shaped (hm : m.Typed h) : m.Shaped h where
  languages := hm.languages.imp fun _ hx => hx.1
  context := hm.context.imp fun _ hx => hx.1
  legacy := hm.legacy

theorem ofValue_recorded {v : Value} {fields : List (String × Value)}
    (hm : m.Recorded h k fields) (hv : k.IsRecord v fields) (he : h.Extends k) :
    ∃ m' l, Hints.ofValue k v = .ok (m', l) ∧ k.Extends l ∧
      List.Forall₂ l.Twin m'.parts m.parts := by
  obtain ⟨ls, hls, hlanguages⟩ := hm.languages
  obtain ⟨cs, hcs, hcontext⟩ := hm.context
  obtain ⟨b, hb, hlegacy⟩ := hm.legacy
  let l₁ := (k.store (.list ls)).2
  let l₂ := (l₁.store (.list cs)).2
  have he₁ : k.Extends l₁ := .alloc k _
  have he₂ : l₁.Extends l₂ := .alloc l₁ _
  have he' := he₁.trans he₂
  have hrun : Hints.ofValue k v = .ok
      (⟨(k.store (.list ls)).1, (l₁.store (.list cs)).1, m.notes, .bool b⟩, l₂) := by
    simp only [ofValue, hv.recordMapping_eq, ok_bind, Mapping.field_entries, Mapping.get_entries,
      Heap.newListOr_of_list? hlanguages]
    rw [Heap.newListOr_of_list? (hcontext.imp_right he₁.list?_of_some), ok_bind, hm.notes, hlegacy]
    rfl
  refine ⟨_, l₂, hrun, he', ?_⟩
  refine .cons (.lists (he₂.list?_of_some (Heap.list?_store k ls)) ?_) ?_
  · exact (he.trans he').list?_of_some hls
  refine .cons (.lists (Heap.list?_store l₁ cs) ?_) ?_
  · exact (he.trans he').list?_of_some hcs
  rw [hb]
  exact .cons (.same _) (.cons (.same _) .nil)

end Hints

namespace Options

variable {h k : Heap} {o : Options}

structure Typed (h : Heap) (o : Options) : Prop where
  fields : h.IsTexts o.fields
  defaults : h.IsTable o.defaults
  rules : h.IsTable o.rules
  focus : o.focus = .null ∨ h.IsTexts o.focus
  threshold : o.threshold = .null ∨ o.threshold.IsText

theorem Typed.shaped (ho : o.Typed h) : o.Shaped h where
  fields := ho.fields.imp fun _ hx => hx.1
  defaults := ho.defaults.imp fun _ hx => hx.1
  rules := ho.rules.imp fun _ hx => hx.1

theorem Typed.focused (ho : o.Typed h) : o.Focused h :=
  ho.focus.imp_right fun hf => hf.imp fun _ hx => Heap.iterate_of_list? hx.1

theorem Recorded.twin_focus {fields : List (String × Value)} (hr : o.Recorded h k fields)
    (ho : o.Typed h) (he : h.Extends k) :
    k.Twin ((fields.lookup "focus_areas").getD .null) o.focus := by
  obtain ⟨hnull, hfield⟩ | ⟨xs, hxs, hfield⟩ := hr.focus
  · rw [hfield, hnull]
    exact .same _
  · obtain hnull | ⟨ys, hys, -⟩ := ho.focus
    · rw [hnull] at hxs
      cases hxs
    · obtain rfl := Except.ok.inj (hxs.symm.trans (Heap.iterate_of_list? hys))
      exact .lists hfield (he.list?_of_some hys)

theorem ofValue_recorded {v : Value} {fields : List (String × Value)} (ht : o.Typed h)
    (ho : o.Recorded h k fields) (hv : k.IsRecord v fields) (he : h.Extends k) :
    ∃ o' l, Options.ofValue k v = .ok (o', l) ∧ k.Extends l ∧
      List.Forall₂ l.Twin o'.parts o.parts := by
  obtain ⟨xs, hxs, hfields⟩ := ho.configurable
  obtain ⟨ds, hds, hdsTexted⟩ := ht.defaults
  obtain ⟨rs, hrs, hrsTexted⟩ := ht.rules
  obtain ⟨ds', hds', hdefaults⟩ := ho.defaults
  obtain ⟨rs', hrs', hrules⟩ := ho.rules
  obtain rfl := Option.some.inj (hds.symm.trans hds')
  obtain rfl := Option.some.inj (hrs.symm.trans hrs')
  obtain ⟨o', l, hrun, he', hfields', hdefaults', hrules', hfocus', hthreshold'⟩ :=
    Options.ofValue_of_fields hv.recordMapping_eq (Mapping.field_entries _ _) hfields
      (Mapping.field_entries _ _) hdefaults (Mapping.field_entries _ _) hrules
      (Mapping.field_entries _ _) (Mapping.field_entries _ _)
  have hl := he.trans he'
  refine ⟨o', l, hrun, he', ?_⟩
  refine .cons (.lists hfields' (hl.list?_of_some hxs)) ?_
  refine .cons (.dicts hdefaults' (hl.dict?_of_some hds) hdsTexted) ?_
  refine .cons (.dicts hrules' (hl.dict?_of_some hrs) hrsTexted) ?_
  rw [hfocus', hthreshold', ho.threshold]
  exact .cons ((ho.twin_focus ht he).mono he') (.cons (.same _) .nil)

end Options

namespace Prompt

variable {h k l : Heap} {p : Prompt}

structure Typed (h : Heap) (p : Prompt) : Prop where
  id : p.id.IsText
  name : p.name.IsText
  body : p.body = .null ∨ h.isDict p.body = true
  description : p.description.IsText
  version : p.version.IsText
  schemaVersion : p.schemaVersion.IsText
  options : p.options.Typed h
  hints : ∀ m, p.hints = some m → m.Typed h
  author : p.author = .null ∨ p.author.IsText
  created : p.created = .null ∨ p.created.IsText
  modified : p.modified = .null ∨ p.modified.IsText

/-- The texts that a record converts are texts proper, and hints, if there are any, hint at
something. -/
structure Recoverable (h : Heap) (p : Prompt) : Prop where
  id : ∃ s, p.id = .text s
  name : ∃ s, p.name = .text s
  version : ∃ s, p.version = .text s
  schemaVersion : ∃ s, p.schemaVersion = .text s
  hints : ∀ m, p.hints = some m → ¬ m.Blank h

/-- Turns a prompt into a record and back, and compares what came back with it. -/
def comesBack (h : Heap) (serial : Nat) (p : Prompt) : Except Fault Bool := do
  let (v, h) ← p.toValue h
  let (q, h) ← Prompt.ofValue h serial v
  q.sameFields h p

theorem textField_entries {name : String} (default : String) {v : Value} {t : String}
    {fields : List (String × Value)} (hv : fields.lookup name = some v) (ht : h.text v = .ok t) :
    textField h (.entries (fields.map fun f => (.text f.1, f.2))) name default = .ok (.text t) := by
  rw [textField, Mapping.get_entries, hv, ok_bind, Option.getD_some, ht]
  rfl

/-- A text converted to text is the same exactly if it is a text proper. -/
theorem text_of_isText {v : Value} (hv : v.IsText) :
    ∃ s t, v.asText? = some s ∧ (∀ h : Heap, h.text v = .ok t) ∧
      ((t == s) = true ↔ ∃ u, v = .text u) := by
  obtain ⟨s, hs⟩ := hv
  cases v with
  | text u =>
    obtain rfl := Option.some.inj hs
    exact ⟨u, u, rfl, fun _ => rfl, by simp⟩
  | kind d => exact ⟨_, _, rfl, fun _ => rfl, by cases d <;> simp <;> decide⟩
  | category c => exact ⟨_, _, rfl, fun _ => rfl, by cases c <;> simp <;> decide⟩
  | _ => cases hs

theorem orElse_category (h : Heap) (c : Category) (v : Value) :
    h.orElse (.text c.name) v = .ok (.text c.name) := by
  cases c <;> rfl

theorem asCategory_text (h : Heap) (c : Category) : h.asCategory (.text c.name) = .ok c := by
  cases c <;> rfl

theorem Typed.shaped (hp : p.Typed h) : p.Shaped h where
  options := hp.options.shaped
  hints m hm := (hp.hints m hm).shaped

theorem toValue_recorded (hp : p.Typed h) :
    ∃ v k options hints, p.toValue h = .ok (v, k) ∧ h.Extends k ∧
      k.IsRecord v (p.fieldsOf options hints) ∧ p.Recorded h k options hints :=
  toValue_of_shaped hp.shaped hp.options.focused

def Converted (v w : Value) : Prop :=
  ∃ t, (∀ h : Heap, h.text v = .ok t) ∧ w = .text t

inductive HintsBack (h l : Heap) : Option Hints → Option Hints → Prop
  | none : HintsBack h l none none
  | blank {m : Hints} : m.Blank h → HintsBack h l (some m) none
  | same {m m' : Hints} : ¬ m.Blank h → List.Forall₂ l.Twin m'.parts m.parts →
      HintsBack h l (some m) (some m')

structure CameBack (h l : Heap) (p q : Prompt) : Prop where
  id : Converted p.id q.id
  name : Converted p.name q.name
  version : Converted p.version q.version
  schemaVersion : Converted p.schemaVersion q.schemaVersion
  body : q.body = p.body
  description : q.description = p.description
  category : q.category = p.category
  options : List.Forall₂ l.Twin q.options.parts p.options.parts
  hints : HintsBack h l p.hints q.hints
  last : [q.author, q.created, q.modified] = [p.author, p.created, p.modified]

theorem Recorded.hintsBack {options : Value} {hints : Option Value}
    (hp : p.Recorded h k options hints) (hk : k.Extends l) (he : h.Extends l) :
    ∃ hinted hs l', l.truth (hints.getD .null) = .ok hinted ∧ (if hinted then
        (Hints.ofValue l (hints.getD .null)).map fun r => (some r.1, r.2)
      else pure (none, l)) = Except.ok (ε := Fault) (hs, l') ∧ l.Extends l' ∧
      HintsBack h l' p.hints hs := by
  obtain ⟨hnone, rfl⟩ | ⟨m, v, fs, hm, rfl, hv, hfs⟩ := hp.hints
  · exact ⟨false, none, l, rfl, rfl, .refl _, by rw [hnone]; exact .none⟩
  · have hv' := hv.mono hk
    rw [Option.getD_some, hv'.truth_eq, hm]
    by_cases hnil : fs = []
    · rw [hnil]
      exact ⟨false, none, l, rfl, rfl, .refl _, .blank (hfs.empty.1 hnil)⟩
    · obtain ⟨m', l', hrun, he', htwins⟩ := Hints.ofValue_recorded (hfs.mono hk) hv' he
      refine ⟨_, some m', l', rfl, ?_, he', .same (fun hb => hnil (hfs.empty.2 hb)) htwins⟩
      rw [if_pos (by simpa using hnil), hrun]
      rfl

theorem ofValue_recorded {v options : Value} {hints : Option Value} (serial : Nat)
    (hp : p.Typed h) (hname : p.name.Worded) (hk : h.Extends k)
    (hv : k.IsRecord v (p.fieldsOf options hints)) (hr : p.Recorded h k options hints) :
    ∃ q l, Prompt.ofValue k serial v = .ok (q, l) ∧ CameBack h l p q := by
  obtain ⟨fs, hoptions, hfs⟩ := hr.options
  obtain ⟨o, l₁, hrun₁, he₁, htwins⟩ := Options.ofValue_recorded hp.options hfs hoptions hk
  obtain ⟨hinted, hs, l₂, htruth, hrun₂, he₂, hback⟩ := hr.hintsBack he₁ (hk.trans he₁)
  obtain ⟨s₁, t₁, -, ht₁, -⟩ := text_of_isText hp.id
  obtain ⟨s₂, t₂, -, ht₂, -⟩ := text_of_isText hp.name
  obtain ⟨s₃, t₃, -, ht₃, -⟩ := text_of_isText hp.version
  obtain ⟨s₄, t₄, -, ht₄, -⟩ := text_of_isText hp.schemaVersion
  let q : Prompt :=
    { p with
      serial, id := .text t₁, name := .text t₂, version := .text t₃, schemaVersion := .text t₄,
      options := o, hints := hs }
  have hbody : (if l₂.isDict p.body = true then p.body else .null) = p.body := by
    split
    · rfl
    · next hdict =>
      refine (hp.body.resolve_right fun hd => hdict ?_).symm
      obtain ⟨es, hes⟩ := Option.isSome_iff_exists.1 hd
      have he := (hk.trans he₁).trans he₂
      exact Option.isSome_iff_exists.2 ⟨es, he.dict?_of_some hes⟩
  have hgiven : (if true then (k.text p.name).map Value.text
      else textField k (.entries ((p.fieldsOf options hints).map fun f => (.text f.1, f.2))) "id"
        "") = .ok (.text t₂) := by
    rw [if_pos rfl, ht₂]
    rfl
  obtain ⟨hid, hnamed, hdescription, hcategory, hversion, hschema, htemplate, hconfig⟩ :=
    lookup_base p options hints
  obtain ⟨hauthor, hcreated, hmodified⟩ := lookup_last p options hints
  have hrun : Prompt.ofValue k serial v = .ok (q, l₂) := by
    simp only [Prompt.ofValue, bind_ite, bind_eq_ok, Prod.exists]
    refine ⟨_, hv.asMapping_eq, _, field_entries hcategory, _, orElse_category k p.category _, _,
      field_entries htemplate, _, textField_entries "" hid (ht₁ k), _, field_entries hnamed, true,
      hname.truth, _, hgiven, _, field_entries hdescription, _,
      Heap.orElse_of_isText hp.description, p.category, asCategory_text k p.category, _,
      textField_entries "1.0.0" hversion (ht₃ k), _, textField_entries "1.0" hschema (ht₄ k), _,
      field_entries hconfig, o, l₁, hrun₁, _, Mapping.field_entries _ _, hinted, ?_, hs, l₂, ?_, _,
      Mapping.field_entries _ _, _, Mapping.field_entries _ _, _, Mapping.field_entries _ _, ?_⟩
    · rw [lookup_metadata, htruth]
    · rw [lookup_metadata, hrun₂]
    · rw [hbody, hauthor, hcreated, hmodified]
      rfl
  exact ⟨q, l₂, hrun,
    { id := ⟨t₁, ht₁, rfl⟩
      name := ⟨t₂, ht₂, rfl⟩
      version := ⟨t₃, ht₃, rfl⟩
      schemaVersion := ⟨t₄, ht₄, rfl⟩
      body := rfl
      description := rfl
      category := rfl
      options := htwins.imp fun _ _ ht => ht.mono he₂
      hints := hback
      last := rfl }⟩

theorem sameFields_eq {q : Prompt} {b c : Bool}
    (htexts : Heap.allSame h.equalElement
      [q.id, q.name, q.body, q.description, .category q.category, q.version, q.schemaVersion]
      [p.id, p.name, p.body, p.description, .category p.category, p.version, p.schemaVersion] =
        .ok b)
    (hoptions : Heap.allSame h.equalElement q.options.parts p.options.parts = .ok true)
    (hhints : Heap.allSame h.equalElement ((q.hints.map Hints.parts).getD [])
      ((p.hints.map Hints.parts).getD []) = .ok c)
    (hlast : Heap.allSame h.equalElement [q.author, q.created, q.modified]
      [p.author, p.created, p.modified] = .ok true) :
    q.sameFields h p = .ok (b && c) := by
  simp only [Options.parts] at hoptions
  change Heap.allSame h.equalElement
    ((q.hints.map fun m => [m.languages, m.context, m.notes, m.legacy]).getD [])
    ((p.hints.map fun m => [m.languages, m.context, m.notes, m.legacy]).getD []) = .ok c at hhints
  simp only [sameFields, htexts, hoptions, hhints, hlast, ok_bind]
  cases b <;> cases c <;> rfl

theorem allSame_cons_ok {v w : Value} {xs ys : List Value} {b c : Bool}
    (hv : h.equalElement v w = .ok b) (hrest : Heap.allSame h.equalElement xs ys = .ok c) :
    Heap.allSame h.equalElement (v :: xs) (w :: ys) = .ok (b && c) := by
  rw [Heap.allSame, hv, ok_bind]
  cases b with
  | true => exact hrest
  | false => rfl

theorem Converted.equalElement {v w : Value} (hc : Converted v w) (hv : v.IsText) :
    ∃ b, h.equalElement w v = .ok b ∧ (b = true ↔ ∃ u, v = .text u) := by
  obtain ⟨t, ht, rfl⟩ := hc
  obtain ⟨s, t', hs, ht', hproper⟩ := text_of_isText hv
  obtain rfl := Except.ok.inj ((ht h).symm.trans (ht' h))
  exact ⟨_, Heap.equalElement_of_asText rfl hs, hproper⟩

theorem HintsBack.allSame {hints hints' : Option Hints} (hb : HintsBack h l hints hints') :
    ∃ b, Heap.allSame l.equalElement ((hints'.map Hints.parts).getD [])
      ((hints.map Hints.parts).getD []) = .ok b ∧
        (b = true ↔ ∀ m, hints = some m → ¬ m.Blank h) := by
  cases hb with
  | none => exact ⟨true, rfl, by simp⟩
  | blank hblank => exact ⟨false, rfl, by simp [hblank]⟩
  | same hblank htwins => exact ⟨true, Heap.allSame_of_twins htwins, by simp [hblank]⟩

/-- What came back is equal to the prompt if and only if that was recoverable. -/
theorem CameBack.sameFields {q : Prompt} (hq : CameBack h l p q) (hp : p.Typed h) :
    ∃ b, q.sameFields l p = .ok b ∧ (b = true ↔ p.Recoverable h) := by
  obtain ⟨b₁, hb₁, hid⟩ := hq.id.equalElement (h := l) hp.id
  obtain ⟨b₂, hb₂, hname⟩ := hq.name.equalElement (h := l) hp.name
  obtain ⟨b₃, hb₃, hversion⟩ := hq.version.equalElement (h := l) hp.version
  obtain ⟨b₄, hb₄, hschema⟩ := hq.schemaVersion.equalElement (h := l) hp.schemaVersion
  obtain ⟨c, hc, hhints⟩ := hq.hints.allSame
  have hsame (v : Value) : l.equalElement v v = .ok true := (Heap.Twin.same v).equalElement
  have htexts : Heap.allSame l.equalElement
      [q.id, q.name, q.body, q.description, .category q.category, q.version, q.schemaVersion]
      [p.id, p.name, p.body, p.description, .category p.category, p.version, p.schemaVersion] =
        .ok (b₁ && (b₂ && (true && (true && (true && (b₃ && (b₄ && true))))))) := by
    rw [hq.body, hq.description, hq.category]
    apply allSame_cons_ok hb₁
    apply allSame_cons_ok hb₂
    apply allSame_cons_ok (hsame _)
    apply allSame_cons_ok (hsame _)
    apply allSame_cons_ok (hsame _)
    apply allSame_cons_ok hb₃
    apply allSame_cons_ok hb₄
    rfl
  have hlast := Heap.allSame_self hsame [p.author, p.created, p.modified]
  have hoptions := Heap.allSame_of_twins hq.options
  refine ⟨_, sameFields_eq htexts hoptions hc (hq.last ▸ hlast), ?_⟩
  simp only [Bool.and_eq_true, Bool.true_and, Bool.and_true, hid, hname, hversion, hschema,
    hhints]
  constructor
  · intro hb
    obtain ⟨⟨hid, hname, hversion, hschema⟩, hhints⟩ := hb
    exact ⟨hid, hname, hversion, hschema, hhints⟩
  · intro hr
    exact ⟨⟨hr.id, hr.name, hr.version, hr.schemaVersion⟩, hr.hints⟩

/-- A prompt whose fields have their declared types and whose name is not empty can be turned into
a record and back. What comes back is equal to it if and only if it is recoverable. -/
theorem comesBack_iff (serial : Nat) (hp : p.Typed h) (hname : p.name.Worded) :
    ∃ b, p.comesBack h serial = .ok b ∧ (b = true ↔ p.Recoverable h) := by
  obtain ⟨v, k, options, hints, hrun, hk, hv, hr⟩ := toValue_recorded hp
  obtain ⟨q, l, hmade, hq⟩ := ofValue_recorded serial hp hname hk hv hr
  simp only [comesBack, hrun, ok_bind, hmade]
  exact hq.sameFields hp

def noteHeap : Heap where
  nodes := #[.list [], .dict [], .list [.text "python"]]

def note (hints : Hints) : Prompt where
  serial := 0
  id := .text "note"
  name := .text "Note"
  body := .null
  description := .text ""
  category := .general
  version := .text "1.0.0"
  schemaVersion := .text "1.0"
  options := ⟨.ref ⟨0⟩, .ref ⟨1⟩, .ref ⟨1⟩, .null, .null⟩
  hints := some hints
  author := .null
  created := .null
  modified := .null

theorem typed_note {hints : Hints} (hm : hints.Typed noteHeap) : (note hints).Typed noteHeap where
  id := ⟨_, rfl⟩
  name := ⟨_, rfl⟩
  body := .inl rfl
  description := ⟨_, rfl⟩
  version := ⟨_, rfl⟩
  schemaVersion := ⟨_, rfl⟩
  options :=
    { fields := ⟨[], rfl, List.forall_mem_nil _⟩
      defaults := ⟨[], rfl, List.forall_mem_nil _, List.nodup_nil⟩
      rules := ⟨[], rfl, List.forall_mem_nil _, List.nodup_nil⟩
      focus := .inl rfl
      threshold := .inl rfl }
  hints := by
    intro m hm'
    cases hm'
    exact hm
  author := .inl rfl
  created := .inl rfl
  modified := .inl rfl

def oneLanguage : Hints := ⟨.ref ⟨2⟩, .ref ⟨0⟩, .null, .bool false⟩

def noneSet : Hints := ⟨.ref ⟨0⟩, .ref ⟨0⟩, .null, .bool false⟩

theorem typed_oneLanguage : oneLanguage.Typed noteHeap where
  languages := ⟨[.text "python"], rfl, List.forall_mem_singleton.2 ⟨_, rfl⟩⟩
  context := ⟨[], rfl, List.forall_mem_nil _⟩
  notes := .inl rfl
  legacy := ⟨false, rfl⟩

theorem typed_noneSet : noneSet.Typed noteHeap where
  languages := ⟨[], rfl, List.forall_mem_nil _⟩
  context := ⟨[], rfl, List.forall_mem_nil _⟩
  notes := .inl rfl
  legacy := ⟨false, rfl⟩

theorem comesBack_oneLanguage :
    (note oneLanguage).Typed noteHeap ∧ (note oneLanguage).name.Worded ∧
      (note oneLanguage).comesBack noteHeap 1 = .ok true := by
  have hp := typed_note typed_oneLanguage
  have hname : (note oneLanguage).name.Worded := ⟨"Note", rfl, by decide⟩
  obtain ⟨b, hb, hiff⟩ := comesBack_iff 1 hp hname
  have hr : (note oneLanguage).Recoverable noteHeap :=
    { id := ⟨_, rfl⟩
      name := ⟨_, rfl⟩
      version := ⟨_, rfl⟩
      schemaVersion := ⟨_, rfl⟩
      hints := by
        intro m hm hblank
        cases hm
        cases hblank.languages }
  rw [hiff.2 hr] at hb
  exact ⟨hp, hname, hb⟩

/-- Hints with no fields set do not come back. -/
theorem not_comesBack_noneSet :
    (note noneSet).Typed noteHeap ∧ (note noneSet).name.Worded ∧
      (note noneSet).comesBack noteHeap 1 = .ok false := by
  have hp := typed_note typed_noneSet
  have hname : (note noneSet).name.Worded := ⟨"Note", rfl, by decide⟩
  refine ⟨hp, hname, ?_⟩
  obtain ⟨v, k, options, hints, hrun, hk, hv, hr⟩ := toValue_recorded hp
  obtain ⟨q, l, hmade, hq⟩ := ofValue_recorded 1 hp hname hk hv hr
  obtain ⟨b, hb, hiff⟩ := hq.sameFields hp
  have hfalse : b = false := by
    apply Bool.eq_false_iff.2
    intro ht
    exact (hiff.1 ht).hints noneSet rfl ⟨rfl, rfl, rfl, rfl⟩
  simp only [comesBack, hrun, ok_bind, hmade, hb, hfalse]

end Prompt

end Promptbook

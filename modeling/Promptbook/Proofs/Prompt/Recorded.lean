import Promptbook.Proofs.Heap.Records

namespace Promptbook

namespace Heap

variable {h k : Heap} {v : Value} {xs : List Value} {es : Entries Value} {name : String}
  {fields fs : List (String × Value)}

def IsRecord (h : Heap) (v : Value) (fields : List (String × Value)) : Prop :=
  h.dict? v = some (fields.map fun f => (.text f.1, f.2))

theorem isRecord_record (h : Heap) (fields : List (String × Value)) :
    (h.record fields).2.IsRecord (h.record fields).1 fields :=
  dict?_store h _

theorem extends_record (h : Heap) (fields : List (String × Value)) :
    h.Extends (h.record fields).2 :=
  .alloc h _

namespace IsRecord

variable (hv : h.IsRecord v fields)
include hv

theorem mono (he : h.Extends k) : k.IsRecord v fields :=
  he.dict?_of_some hv

theorem truth_eq : h.truth v = .ok !fields.isEmpty := by
  rw [truth_of_dict? hv, List.isEmpty_map]

theorem mapping?_eq : h.mapping? v = some (.entries (fields.map fun f => (.text f.1, f.2))) :=
  mapping?_of_dict? hv

theorem asMapping_eq : h.asMapping v = .ok (.entries (fields.map fun f => (.text f.1, f.2))) :=
  asMapping_eq_ok.2 hv.mapping?_eq

theorem recordMapping_eq :
    h.recordMapping v = .ok (.entries (fields.map fun f => (.text f.1, f.2))) := by
  rw [recordMapping, hv.truth_eq, hv.asMapping_eq]
  cases fields <;> rfl

end IsRecord

def Lists (k : Heap) (name : String) (xs : List Value) (fs : List (String × Value)) : Prop :=
  fs = [] ∧ xs = [] ∨ ∃ w, fs = [(name, w)] ∧ k.list? w = some xs ∧ xs ≠ []

theorem exists_lists (name : String) (hv : h.list? v = some xs) :
    ∃ fs k, (do
        if ← h.truth v then
          let r ← h.newList v
          pure ([(name, r.1)], r.2)
        else pure ([], h)) = (.ok (fs, k) : Except Fault _) ∧ h.Extends k ∧
      Lists k name xs fs := by
  rw [truth_of_list? hv, newList_of_list? hv]
  cases xs with
  | nil => exact ⟨[], h, rfl, .refl _, .inl ⟨rfl, rfl⟩⟩
  | cons x xs =>
    refine ⟨_, _, rfl, .alloc h _, .inr ⟨_, rfl, list?_store h _, ?_⟩⟩
    exact List.cons_ne_nil x xs

theorem Lists.mono (hl : Lists h name xs fs) (he : h.Extends k) : Lists k name xs fs := by
  cases hl with
  | inl hl => exact .inl hl
  | inr hl =>
    obtain ⟨w, hfs, hw, hne⟩ := hl
    exact .inr ⟨w, hfs, he.list?_of_some hw, hne⟩

theorem Lists.lookup_ne {other : String} (hl : Lists h name xs fs) (hne : other ≠ name) :
    fs.lookup other = none := by
  obtain ⟨rfl, -⟩ | ⟨w, rfl, -⟩ := hl
  · rfl
  · rw [List.lookup_cons, beq_eq_false_iff_ne.2 hne]
    rfl

theorem Lists.lookup (hl : Lists h name xs fs) :
    (fs.lookup name).getD .null = .null ∧ xs = [] ∨
      h.list? ((fs.lookup name).getD .null) = some xs := by
  obtain ⟨rfl, rfl⟩ | ⟨w, rfl, hw, -⟩ := hl
  · exact .inl ⟨rfl, rfl⟩
  · rw [List.lookup_cons, beq_self_eq_true]
    exact .inr hw

theorem Lists.nil_iff (hl : Lists h name xs fs) : fs = [] ↔ xs = [] := by
  obtain ⟨rfl, rfl⟩ | ⟨w, rfl, -, hne⟩ := hl
  · simp
  · simp [hne]

end Heap

theorem Mapping.field_entries (name : String) (fields : List (String × Value)) :
    (Mapping.entries (fields.map fun f => (.text f.1, f.2))).field name =
      .ok ((fields.lookup name).getD .null) := by
  rw [field, get, Heap.lookupText_fields]
  rfl

theorem Mapping.get_entries (name : String) (fields : List (String × Value)) :
    (Mapping.entries (fields.map fun f => (.text f.1, f.2))).get name =
      .ok (fields.lookup name) := by
  rw [get, Heap.lookupText_fields]

namespace Hints

variable {h k : Heap} {m : Hints}

/-- Hints that hint at nothing. -/
structure Blank (h : Heap) (m : Hints) : Prop where
  languages : h.list? m.languages = some []
  context : h.list? m.context = some []
  notes : m.notes = .null
  legacy : m.legacy = .bool false

def rest (notes : Value) (legacy : Bool) : List (String × Value) :=
  Heap.present [("performance_notes", notes)] ++
    if legacy = true then [("legacy", .bool true)] else []

theorem lookup_rest (notes : Value) (legacy : Bool) :
    (rest notes legacy).lookup "supported_languages" = .none ∧
      (rest notes legacy).lookup "required_context" = .none ∧
      ((rest notes legacy).lookup "performance_notes").getD .null = notes ∧
      ((rest notes legacy).lookup "legacy").getD (.bool false) = .bool legacy := by
  by_cases hn : notes = .null <;> cases legacy <;> simp [rest, Heap.present, hn, List.lookup_cons]

theorem rest_eq_nil {notes : Value} {legacy : Bool} :
    rest notes legacy = [] ↔ notes = .null ∧ legacy = false := by
  by_cases hn : notes = .null <;> cases legacy <;> simp [rest, Heap.present, hn]

structure Shaped (h : Heap) (m : Hints) : Prop where
  languages : ∃ xs, h.list? m.languages = some xs
  context : ∃ xs, h.list? m.context = some xs
  legacy : ∃ b, m.legacy = .bool b

structure Recorded (h k : Heap) (m : Hints) (fields : List (String × Value)) : Prop where
  empty : fields = [] ↔ m.Blank h
  languages : ∃ xs, h.list? m.languages = some xs ∧
    ((fields.lookup "supported_languages").getD .null = .null ∧ xs = [] ∨
      k.list? ((fields.lookup "supported_languages").getD .null) = some xs)
  context : ∃ xs, h.list? m.context = some xs ∧
    ((fields.lookup "required_context").getD .null = .null ∧ xs = [] ∨
      k.list? ((fields.lookup "required_context").getD .null) = some xs)
  notes : (fields.lookup "performance_notes").getD .null = m.notes
  legacy : ∃ b, m.legacy = .bool b ∧ (fields.lookup "legacy").getD (.bool false) = .bool b

theorem toValue_of_shaped {g : Heap} (hm : m.Shaped h) (hg : h.Extends g) :
    ∃ v k fields, m.toValue g = .ok (v, k) ∧ g.Extends k ∧ k.IsRecord v fields ∧
      m.Recorded h k fields := by
  obtain ⟨ls, hls⟩ := hm.languages
  obtain ⟨cs, hcs⟩ := hm.context
  obtain ⟨b, hb⟩ := hm.legacy
  obtain ⟨fs₁, k₁, hrun₁, he₁, hfs₁⟩ :=
    Heap.exists_lists "supported_languages" (hg.list?_of_some hls)
  obtain ⟨fs₂, k₂, hrun₂, he₂, hfs₂⟩ :=
    Heap.exists_lists "required_context" ((hg.trans he₁).list?_of_some hcs)
  have hlegacy : k₂.truth m.legacy = .ok b := by
    rw [hb]
    rfl
  obtain ⟨hrest₁, hrest₂, hrest₃, hrest₄⟩ := lookup_rest m.notes b
  have hne₁ (name : String) (hne : name ≠ "supported_languages") : fs₁.lookup name = .none :=
    hfs₁.lookup_ne hne
  have hne₂ (name : String) (hne : name ≠ "required_context") : fs₂.lookup name = .none :=
    hfs₂.lookup_ne hne
  have hrun : m.toValue g = .ok (k₂.record (fs₁ ++ fs₂ ++ rest m.notes b)) := by
    simp only [toValue]
    rw [hrun₁, ok_bind, hrun₂, ok_bind, hlegacy, ok_bind, List.append_assoc _ (Heap.present _)]
    rfl
  have hrecord := Heap.extends_record k₂ (fs₁ ++ fs₂ ++ rest m.notes b)
  refine ⟨_, _, _, hrun, (he₁.trans he₂).trans hrecord, Heap.isRecord_record _ _, ?_⟩
  exact
    { empty := by
        rw [List.append_eq_nil_iff, List.append_eq_nil_iff, hfs₁.nil_iff, hfs₂.nil_iff, rest_eq_nil]
        constructor
        · intro hnil
          obtain ⟨⟨rfl, rfl⟩, hnotes, rfl⟩ := hnil
          exact ⟨hls, hcs, hnotes, hb⟩
        · intro hblank
          have hls' := hls.symm.trans hblank.languages
          have hcs' := hcs.symm.trans hblank.context
          have hb' := hb.symm.trans hblank.legacy
          exact ⟨⟨Option.some.inj hls', Option.some.inj hcs'⟩, hblank.notes, Value.bool.inj hb'⟩
      languages := by
        refine ⟨ls, hls, ?_⟩
        rw [List.lookup_append, List.lookup_append, hne₂ _ (by decide), hrest₁, Option.or_none,
          Option.or_none]
        exact (hfs₁.mono (he₂.trans hrecord)).lookup
      context := by
        refine ⟨cs, hcs, ?_⟩
        rw [List.lookup_append, List.lookup_append, hne₁ _ (by decide), hrest₂, Option.none_or,
          Option.or_none]
        exact (hfs₂.mono hrecord).lookup
      notes := by
        rw [List.lookup_append, List.lookup_append, hne₁ _ (by decide), hne₂ _ (by decide),
          Option.none_or, Option.none_or, hrest₃]
      legacy := by
        refine ⟨b, hb, ?_⟩
        rw [List.lookup_append, List.lookup_append, hne₁ _ (by decide), hne₂ _ (by decide),
          Option.none_or, Option.none_or, hrest₄] }

theorem Recorded.mono {l : Heap} {fields : List (String × Value)} (hm : m.Recorded h k fields)
    (he : k.Extends l) : m.Recorded h l fields :=
  { hm with
    languages := hm.languages.imp fun _ hx => ⟨hx.1, hx.2.imp_right he.list?_of_some⟩
    context := hm.context.imp fun _ hx => ⟨hx.1, hx.2.imp_right he.list?_of_some⟩ }

end Hints

namespace Options

variable {h k : Heap} {o : Options}

structure Shaped (h : Heap) (o : Options) : Prop where
  fields : ∃ xs, h.list? o.fields = some xs
  defaults : ∃ es : Entries Value, h.dict? o.defaults = some es
  rules : ∃ es : Entries Value, h.dict? o.rules = some es

def Focused (h : Heap) (o : Options) : Prop :=
  o.focus = .null ∨ ∃ xs, h.iterate o.focus = .ok xs

structure Recorded (h k : Heap) (o : Options) (fields : List (String × Value)) : Prop where
  ne_nil : fields ≠ []
  configurable : ∃ xs, h.list? o.fields = some xs ∧
    k.list? ((fields.lookup "configurable_fields").getD .null) = some xs
  defaults : ∃ es : Entries Value, h.dict? o.defaults = some es ∧
    k.dict? ((fields.lookup "default_values").getD .null) = some es
  rules : ∃ es : Entries Value, h.dict? o.rules = some es ∧
    k.dict? ((fields.lookup "validation_rules").getD .null) = some es
  focus : o.focus = .null ∧ (fields.lookup "focus_areas").getD .null = .null ∨
    ∃ xs, h.iterate o.focus = .ok xs ∧
      k.list? ((fields.lookup "focus_areas").getD .null) = some xs
  threshold : (fields.lookup "severity_threshold").getD .null = o.threshold

theorem toValue_eq (ho : o.Shaped h) : ∃ fields defaults rules k, h.Extends k ∧
    (∃ xs, h.list? o.fields = some xs ∧ k.list? fields = some xs) ∧
    (∃ es : Entries Value, h.dict? o.defaults = some es ∧ k.dict? defaults = some es) ∧
    (∃ es : Entries Value, h.dict? o.rules = some es ∧ k.dict? rules = some es) ∧
    o.toValue h =
      (let base := [("configurable_fields", fields), ("default_values", defaults),
        ("validation_rules", rules)]
      let last := Heap.present [("severity_threshold", o.threshold)]
      if o.focus = .null then pure (k.record (base ++ last))
      else do
        let r ← k.newList o.focus
        pure (r.2.record (base ++ [("focus_areas", r.1)] ++ last))) := by
  obtain ⟨xs, hxs⟩ := ho.fields
  obtain ⟨ds, hds⟩ := ho.defaults
  obtain ⟨rs, hrs⟩ := ho.rules
  let h₁ := (h.store (.list xs)).2
  let h₂ := (h₁.store (.dict ds)).2
  let h₃ := (h₂.store (.dict rs)).2
  have he₁ : h.Extends h₁ := .alloc h _
  have he₂ : h₁.Extends h₂ := .alloc h₁ _
  have he₃ : h₂.Extends h₃ := .alloc h₂ _
  refine ⟨(h.store (.list xs)).1, (h₁.store (.dict ds)).1, (h₂.store (.dict rs)).1, h₃,
    (he₁.trans he₂).trans he₃,
    ⟨xs, hxs, (he₂.trans he₃).list?_of_some (Heap.list?_store h xs)⟩,
    ⟨ds, hds, he₃.dict?_of_some (Heap.dict?_store h₁ ds)⟩, ⟨rs, hrs, Heap.dict?_store h₂ rs⟩, ?_⟩
  simp only [toValue, Heap.newList_of_list? hxs, ok_bind]
  rw [Heap.newDict_of_dict? (he₁.dict?_of_some hds), ok_bind,
    Heap.newDict_of_dict? ((he₁.trans he₂).dict?_of_some hrs), ok_bind]

theorem exists_focus {g : Heap} (ho : o.Focused h) (he : h.Extends g)
    (base last : List (String × Value)) :
    ∃ fs k, (if o.focus = .null then pure (g.record (base ++ last)) else do
        let r ← g.newList o.focus
        pure (r.2.record (base ++ [("focus_areas", r.1)] ++ last))) =
          Except.ok (ε := Fault) (k.record (base ++ fs ++ last)) ∧
      g.Extends k ∧ (∀ f ∈ fs, f.1 = "focus_areas") ∧
      (o.focus = .null ∧ (fs.lookup "focus_areas").getD .null = .null ∨
        ∃ xs, h.iterate o.focus = .ok xs ∧
          k.list? ((fs.lookup "focus_areas").getD .null) = some xs) := by
  by_cases hnull : o.focus = .null
  · rw [if_pos hnull]
    exact ⟨[], g, by rw [List.append_nil]; rfl, .refl _, List.forall_mem_nil _,
      .inl ⟨hnull, rfl⟩⟩
  · obtain ⟨xs, hxs⟩ := ho.resolve_left hnull
    rw [if_neg hnull, Heap.newList_of_iterate (he.iterate_of_ok hxs)]
    refine ⟨[("focus_areas", (g.store (.list xs)).1)], _, rfl, .alloc g _, ?_, .inr ⟨xs, hxs, ?_⟩⟩
    · exact List.forall_mem_singleton.2 rfl
    · exact Heap.list?_store g xs

theorem toValue_of_shaped (ho : o.Shaped h) (hf : o.Focused h) :
    ∃ v k fields, o.toValue h = .ok (v, k) ∧ h.Extends k ∧ k.IsRecord v fields ∧
      o.Recorded h k fields := by
  obtain ⟨fields, defaults, rules, g, he, ⟨xs, hxs, hfields⟩, ⟨ds, hds, hdefaults⟩,
    ⟨rs, hrs, hrules⟩, hrun⟩ := toValue_eq ho
  let base := [("configurable_fields", fields), ("default_values", defaults),
    ("validation_rules", rules)]
  let last := Heap.present [("severity_threshold", o.threshold)]
  obtain ⟨fs, k, hrun', he', hfs, hfocus⟩ := exists_focus hf he base last
  have hne (name : String) (hne : name ≠ "focus_areas") : fs.lookup name = .none := by
    rw [List.lookup_eq_none_iff]
    intro f hf
    rw [hfs f hf, bne_iff_ne]
    exact hne
  have hrecord := Heap.extends_record k (base ++ fs ++ last)
  have hk := he'.trans hrecord
  refine ⟨_, _, _, hrun.trans hrun', he.trans hk, Heap.isRecord_record _ _, ?_⟩
  exact
    { ne_nil := by simp [base]
      configurable := ⟨xs, hxs, hk.list?_of_some hfields⟩
      defaults := ⟨ds, hds, hk.dict?_of_some hdefaults⟩
      rules := ⟨rs, hrs, hk.dict?_of_some hrules⟩
      focus := by
        have hlast : last.lookup "focus_areas" = .none :=
          Heap.lookup_present_ne (by simp)
        rw [List.lookup_append, List.lookup_append, hlast, Option.or_none]
        exact hfocus.imp_right fun hx => hx.imp fun _ hx => ⟨hx.1, hrecord.list?_of_some hx.2⟩
      threshold := by
        rw [List.lookup_append, List.lookup_append, hne _ (by decide), Option.or_none]
        change (last.lookup "severity_threshold").getD .null = _
        rw [Heap.lookup_present (by simp)]
        rfl }

theorem Recorded.mono {l : Heap} {fields : List (String × Value)} (ho : o.Recorded h k fields)
    (he : k.Extends l) : o.Recorded h l fields :=
  { ho with
    configurable := ho.configurable.imp fun _ hx => ⟨hx.1, he.list?_of_some hx.2⟩
    defaults := ho.defaults.imp fun _ hx => ⟨hx.1, he.dict?_of_some hx.2⟩
    rules := ho.rules.imp fun _ hx => ⟨hx.1, he.dict?_of_some hx.2⟩
    focus := ho.focus.imp_right fun hf => hf.imp fun _ hx => ⟨hx.1, he.list?_of_some hx.2⟩ }

theorem focused_of_toValue {v : Value} (ho : o.Shaped h) (hheld : h.Holds o.focus)
    (hrun : o.toValue h = .ok (v, k)) : o.Focused h := by
  obtain ⟨fields, defaults, rules, g, he, -, -, -, heq⟩ := toValue_eq ho
  by_cases hnull : o.focus = .null
  · exact .inl hnull
  · right
    rw [heq, if_neg hnull] at hrun
    simp only [Heap.newList, bind_eq_ok] at hrun
    obtain ⟨r, ⟨xs, hxs, -⟩, -⟩ := hrun
    rw [he.iterate_eq hheld] at hxs
    exact ⟨xs, hxs⟩

end Options

namespace Prompt

variable {h k l : Heap} {p : Prompt}

def fieldsOf (p : Prompt) (options : Value) (hints : Option Value) : List (String × Value) :=
  [("id", p.id), ("name", p.name), ("description", p.description),
    ("category", .text p.category.name), ("version", p.version),
    ("schema_version", p.schemaVersion), ("template", p.body), ("config", options)] ++
    (hints.map fun v => ("metadata", v)).toList ++
    Heap.present [("author", p.author), ("created_date", p.created), ("last_modified", p.modified)]

theorem lookup_base (p : Prompt) (options : Value) (hints : Option Value) :
    (p.fieldsOf options hints).lookup "id" = some p.id ∧
      (p.fieldsOf options hints).lookup "name" = some p.name ∧
      (p.fieldsOf options hints).lookup "description" = some p.description ∧
      (p.fieldsOf options hints).lookup "category" = some (.text p.category.name) ∧
      (p.fieldsOf options hints).lookup "version" = some p.version ∧
      (p.fieldsOf options hints).lookup "schema_version" = some p.schemaVersion ∧
      (p.fieldsOf options hints).lookup "template" = some p.body ∧
      (p.fieldsOf options hints).lookup "config" = some options :=
  ⟨rfl, rfl, rfl, rfl, rfl, rfl, rfl, rfl⟩

theorem lookup_metadata (p : Prompt) (options : Value) (hints : Option Value) :
    ((p.fieldsOf options hints).lookup "metadata").getD .null = hints.getD .null := by
  rw [fieldsOf, List.lookup_append, Heap.lookup_present_ne (by simp), Option.or_none]
  cases hints <;> rfl

theorem field_entries {name : String} {v : Value} {fields : List (String × Value)}
    (hv : fields.lookup name = some v) :
    (Mapping.entries (fields.map fun f => (.text f.1, f.2))).field name = .ok v := by
  rw [Mapping.field_entries, hv, Option.getD_some]

theorem lookup_last (p : Prompt) (options : Value) (hints : Option Value) :
    ((p.fieldsOf options hints).lookup "author").getD .null = p.author ∧
      ((p.fieldsOf options hints).lookup "created_date").getD .null = p.created ∧
      ((p.fieldsOf options hints).lookup "last_modified").getD .null = p.modified := by
  have hpresent {name : String} {v : Value}
      (hbase : ((p.fieldsOf options hints).lookup name) = (Heap.present [("author", p.author),
        ("created_date", p.created), ("last_modified", p.modified)]).lookup name)
      (hv : [("author", p.author), ("created_date", p.created),
        ("last_modified", p.modified)].lookup name = some v) :
      ((p.fieldsOf options hints).lookup name).getD .null = v := by
    rw [hbase, Heap.lookup_present (by simp), hv]
    rfl
  cases hints <;> exact ⟨hpresent rfl rfl, hpresent rfl rfl, hpresent rfl rfl⟩

structure Recorded (h k : Heap) (p : Prompt) (options : Value) (hints : Option Value) : Prop where
  options : ∃ fs, k.IsRecord options fs ∧ p.options.Recorded h k fs
  hints : p.hints = none ∧ hints = none ∨
    ∃ m v fs, p.hints = some m ∧ hints = some v ∧ k.IsRecord v fs ∧ m.Recorded h k fs

structure Shaped (h : Heap) (p : Prompt) : Prop where
  options : p.options.Shaped h
  hints : ∀ m, p.hints = some m → m.Shaped h

theorem toValue_of_shaped (hp : p.Shaped h) (hf : p.options.Focused h) :
    ∃ v k options hints, p.toValue h = .ok (v, k) ∧ h.Extends k ∧
      k.IsRecord v (p.fieldsOf options hints) ∧ p.Recorded h k options hints := by
  obtain ⟨options, k₁, fs, hrun₁, he₁, hoptions, hfs⟩ := Options.toValue_of_shaped hp.options hf
  cases hhints : p.hints with
  | none =>
    have hrecord := Heap.extends_record k₁ (p.fieldsOf options none)
    refine ⟨_, _, options, none, ?_, he₁.trans hrecord, Heap.isRecord_record k₁ _, ?_⟩
    · simp only [toValue, hrun₁, ok_bind, hhints]
      rfl
    · exact ⟨⟨fs, hoptions.mono hrecord, hfs.mono hrecord⟩, .inl ⟨hhints, rfl⟩⟩
  | some m =>
    obtain ⟨v, k₂, gs, hrun₂, he₂, hv, hgs⟩ := Hints.toValue_of_shaped (hp.hints m hhints) he₁
    have hrecord := Heap.extends_record k₂ (p.fieldsOf options (some v))
    refine ⟨_, _, options, some v, ?_, (he₁.trans he₂).trans hrecord, Heap.isRecord_record k₂ _, ?_⟩
    · simp only [toValue, hrun₁, ok_bind, hhints, hrun₂]
      rfl
    · exact ⟨⟨fs, hoptions.mono (he₂.trans hrecord), hfs.mono (he₂.trans hrecord)⟩,
        .inr ⟨m, v, gs, hhints, rfl, hv.mono hrecord, hgs.mono hrecord⟩⟩

/-- A prompt can be turned into a record exactly if its areas of focus are null or can be gone
through. -/
theorem isOk_toValue_iff (hp : p.Shaped h) (hheld : h.Holds p.options.focus) :
    (∃ v k, p.toValue h = .ok (v, k)) ↔ p.options.Focused h := by
  constructor
  · intro hrun
    obtain ⟨v, k, hrun⟩ := hrun
    simp only [toValue, bind_eq_ok] at hrun
    obtain ⟨⟨options, k₁⟩, hoptions, -⟩ := hrun
    exact Options.focused_of_toValue hp.options hheld hoptions
  · intro hf
    obtain ⟨v, k, -, -, hrun, -⟩ := toValue_of_shaped hp hf
    exact ⟨v, k, hrun⟩

end Prompt

end Promptbook

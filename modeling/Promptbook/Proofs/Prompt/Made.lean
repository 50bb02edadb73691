import Promptbook.Proofs.Body.Resolved
import Promptbook.Proofs.Heap.Literal
import Promptbook.Proofs.Heap.Records
import Promptbook.Proofs.Review.Accepted

namespace Promptbook

theorem bind_ite {α β : Type} {c : Prop} [Decidable c] {x y : Except Fault α}
    {f : α → Except Fault β} :
    (if c then x >>= f else y >>= f) = (if c then x else y) >>= f := by
  split <;> rfl

namespace Heap

variable {h k : Heap} {v w : Value} {m : Mapping} {node : Node} {xs : List Value}
  {es : Entries Value}

theorem Extends.mapping?_of_some (he : h.Extends k) (hm : h.mapping? v = some m) :
    k.mapping? v = some m := by
  rw [he.mapping?_eq (holds_of_mapping? hm), hm]

theorem truth_of_mapping? (hm : h.mapping? v = some m) : h.truth v = .ok (h.truthy v) := by
  cases v <;> first | rfl | cases hm

theorem isOk_newListOr (hv : v.isTestable = true) : (∃ w k, h.newListOr v = .ok (w, k)) ↔
    (h.truthy v = true → ∃ xs, h.iterate v = .ok xs) := by
  rw [newListOr, truth_eq hv, ok_bind]
  split
  · next ht =>
    simp only [newList, bind_eq_ok, pure_eq_ok, ht, forall_const]
    constructor
    · intro hrun
      obtain ⟨w, k, xs, hxs, -⟩ := hrun
      exact ⟨xs, hxs⟩
    · intro hi
      obtain ⟨xs, hxs⟩ := hi
      exact ⟨_, _, xs, hxs, rfl⟩
  · next ht => exact ⟨fun _ h => (ht h).elim, fun _ => ⟨_, _, rfl⟩⟩

theorem newListOr_eq_ok (hrun : h.newListOr v = .ok (w, k)) :
    ∃ xs, h.store (.list xs) = (w, k) ∧ ∀ x ∈ xs, ∃ ys, h.iterate v = .ok ys ∧ x ∈ ys := by
  rw [newListOr, bind_eq_ok] at hrun
  obtain ⟨given, -, hrun⟩ := hrun
  split at hrun
  · simp only [newList, bind_eq_ok, pure_eq_ok] at hrun
    obtain ⟨xs, hxs, hrun⟩ := hrun
    exact ⟨xs, hrun, fun x hx => ⟨xs, hxs, hx⟩⟩
  · exact ⟨[], Except.ok.inj hrun, List.forall_mem_nil _⟩

theorem extends_newListOr (hrun : h.newListOr v = .ok (w, k)) : h.Extends k := by
  obtain ⟨xs, hk, -⟩ := newListOr_eq_ok hrun
  cases hk
  exact .alloc h _

theorem newDictOr_eq_ok (hrun : h.newDictOr v = .ok (w, k)) :
    ∃ es, h.store (.dict es) = (w, k) ∧ (es = [] ∨ h.entriesOf v = .ok es) := by
  rw [newDictOr, bind_eq_ok] at hrun
  obtain ⟨given, -, hrun⟩ := hrun
  split at hrun
  · simp only [newDict, bind_eq_ok, pure_eq_ok] at hrun
    obtain ⟨es, hes, hrun⟩ := hrun
    exact ⟨es, hrun, .inr hes⟩
  · exact ⟨[], Except.ok.inj hrun, .inl rfl⟩

theorem extends_newDictOr (hrun : h.newDictOr v = .ok (w, k)) : h.Extends k := by
  obtain ⟨es, hk, -⟩ := newDictOr_eq_ok hrun
  cases hk
  exact .alloc h _

theorem text_of_asText {s : String} (hv : v.asText? = some s) :
    ∃ t, h.text v = .ok t ∧ (s ≠ "" → t ≠ "") := by
  cases v with
  | text t =>
    obtain rfl := Option.some.inj hv
    exact ⟨_, rfl, id⟩
  | kind d => exact ⟨_, rfl, fun _ => by cases d <;> decide⟩
  | category d => exact ⟨_, rfl, fun _ => by cases d <;> decide⟩
  | _ => cases hv

theorem isTestable_of_isText (hv : v.IsText) : v.isTestable = true := by
  obtain ⟨s, hs⟩ := hv
  cases v <;> first | rfl | cases hs

theorem orElse_of_isText (hv : v.IsText) : h.orElse v (.text "") = .ok v := by
  obtain ⟨s, hs⟩ := hv
  cases v with
  | text u =>
    cases hu : u.isEmpty with
    | true =>
      rw [String.isEmpty_iff.1 hu]
      rfl
    | false => simp [orElse, truth, truthy, hu]
  | kind d | category c => rfl
  | _ => cases hs

theorem truth_of_toCategory {c : Category} (hv : v.toCategory? = some c) :
    h.truth v = .ok true := by
  obtain ⟨s, hs, hc⟩ := Option.bind_eq_some_iff.1 hv
  apply Value.Worded.truth
  refine ⟨s, hs, ?_⟩
  intro he
  subst he
  have hnone : Category.ofName? "" = none := by decide
  rw [hnone] at hc
  cases hc

end Heap

theorem Mapping.entries_of_field {m : Mapping} {name : String} {v : Value}
    (hv : m.field name = .ok v) : ∃ es, m = .entries es := by
  cases m with
  | entries es => exact ⟨es, rfl⟩
  | «sealed» ks message => cases hv

namespace Hints

variable {h k : Heap} {data : Value}

/-- Hints can be made of a record: it is a mapping, and both of its lists can be gone through. -/
def Readable (h : Heap) (data : Value) : Prop :=
  ∃ m, h.mapping? data = some m ∧ ∀ name ∈ ["supported_languages", "required_context"],
    ∃ v, m.field name = .ok v ∧ (h.truthy v = true → ∃ xs, h.iterate v = .ok xs)

theorem recordMapping_eq_ok {m : Mapping} (ht : h.truth data = .ok true) :
    h.recordMapping data = .ok m ↔ h.mapping? data = some m := by
  rw [Heap.recordMapping, ht, ok_bind, if_pos rfl, Heap.asMapping_eq_ok]

theorem isOk_ofValue_iff (ht : h.truth data = .ok true)
    (hheld : ∀ m name v, h.mapping? data = some m → m.field name = .ok v →
      h.Holds v ∧ v.isTestable = true) :
    (∃ hints k, Hints.ofValue h data = .ok (hints, k)) ↔ Readable h data := by
  constructor
  · intro hrun
    obtain ⟨hints, k, hrun⟩ := hrun
    simp only [Hints.ofValue, bind_eq_ok, recordMapping_eq_ok ht, Prod.exists] at hrun
    obtain ⟨m, hm, v₁, hv₁, w₁, k₁, hrun₁, v₂, hv₂, w₂, k₂, hrun₂, -⟩ := hrun
    have he := Heap.extends_newListOr hrun₁
    have ⟨_, htest₁⟩ := hheld m _ _ hm hv₁
    have ⟨hheld₂, htest₂⟩ := hheld m _ _ hm hv₂
    have hlater := (Heap.isOk_newListOr htest₂).1 ⟨w₂, k₂, hrun₂⟩
    rw [he.truthy_eq hheld₂, he.iterate_eq hheld₂] at hlater
    refine ⟨m, hm, List.forall_mem_cons.2 ⟨⟨v₁, hv₁, ?_⟩, List.forall_mem_singleton.2 ?_⟩⟩
    · exact (Heap.isOk_newListOr htest₁).1 ⟨w₁, k₁, hrun₁⟩
    · exact ⟨v₂, hv₂, hlater⟩
  · intro hr
    obtain ⟨m, hm, hfields⟩ := hr
    obtain ⟨v₁, hv₁, hi₁⟩ := hfields "supported_languages" (by simp)
    obtain ⟨v₂, hv₂, hi₂⟩ := hfields "required_context" (by simp)
    have ⟨_, htest₁⟩ := hheld m _ _ hm hv₁
    have ⟨hheld₂, htest₂⟩ := hheld m _ _ hm hv₂
    obtain ⟨w₁, k₁, hrun₁⟩ := (Heap.isOk_newListOr htest₁).2 hi₁
    have he := Heap.extends_newListOr hrun₁
    rw [← he.truthy_eq hheld₂, ← he.iterate_eq hheld₂] at hi₂
    obtain ⟨w₂, k₂, hrun₂⟩ := (Heap.isOk_newListOr htest₂).2 hi₂
    obtain ⟨es, rfl⟩ := Mapping.entries_of_field hv₁
    have hlegacy : ((lookupText "legacy" es).getD (.bool false)).isTestable = true := by
      cases hl : lookupText "legacy" es with
      | none => rfl
      | some legacy =>
        apply (hheld _ "legacy" legacy hm _).2
        rw [Mapping.field, Mapping.get, hl]
        rfl
    have hnotes : Mapping.field (.entries es) "performance_notes" =
        .ok ((lookupText "performance_notes" es).getD .null) := rfl
    have hget : Mapping.get (.entries es) "legacy" = .ok (lookupText "legacy" es) := rfl
    simp only [Hints.ofValue, (recordMapping_eq_ok ht).2 hm, ok_bind, hv₁, hrun₁, hv₂, hrun₂,
      hnotes, hget, Heap.truth_eq hlegacy]
    exact ⟨_, _, rfl⟩

theorem extends_ofValue {hints : Hints} (hrun : Hints.ofValue h data = .ok (hints, k)) :
    h.Extends k := by
  simp only [Hints.ofValue, bind_eq_ok, Prod.exists] at hrun
  obtain ⟨m, -, v₁, -, w₁, k₁, hrun₁, v₂, -, w₂, k₂, hrun₂, v₃, -, v₄, -, v₅, -,
    hrun⟩ := hrun
  cases hrun
  exact (Heap.extends_newListOr hrun₁).trans (Heap.extends_newListOr hrun₂)

theorem readable_iff (he : h.Extends k) (hc : h.Closed) (hv : h.Holds data) :
    Readable k data ↔ Readable h data := by
  rw [Readable, Readable, he.mapping?_eq hv]
  apply exists_congr
  intro m
  apply and_congr_right
  intro hm
  apply forall₂_congr
  intro name _
  apply exists_congr
  intro v
  apply and_congr_right
  intro hfield
  rw [he.truthy_eq (hc.holds_field hm hfield), he.iterate_eq (hc.holds_field hm hfield)]

end Hints

section Options

variable {h k : Heap} {v w : Value} {m : Mapping} {name : String}

theorem Heap.Unsealed.field_entries (hu : h.Unsealed v) (hm : h.mapping? v = some m)
    (hw : m.field name = .ok w) (hmap : h.isMapping w = true) :
    ∃ es, h.mapping? w = some (.entries es) := by
  obtain ⟨d, hd⟩ := Option.isSome_iff_exists.1 hmap
  obtain ⟨es, rfl⟩ := (hu.field hm hw).entries hd
  exact ⟨es, hd⟩

theorem Heap.Unsealed.field_dict (hu : h.Unsealed v) (hm : h.mapping? v = some m)
    (hw : m.field name = .ok w) (hmap : h.isMapping w = true) :
    ∃ es, h.dict? w = some es := by
  obtain ⟨es, hes⟩ := hu.field_entries hm hw hmap
  obtain ⟨r, rfl, hr⟩ := Heap.exists_of_entries hes
  exact ⟨es, Heap.dict?_eq_some.2 hr⟩

theorem Heap.Unsealed.isDict_field (hu : h.Unsealed v) (hm : h.mapping? v = some m)
    (hw : m.field name = .ok w) (hmap : h.isMapping w = true) (he : h.Extends k) :
    k.isDict w = true := by
  obtain ⟨es, hes⟩ := hu.field_dict hm hw hmap
  rw [Heap.isDict, he.dict?_of_some hes, Option.isSome_some]

structure Options.MadeOf (h : Heap) (m : Mapping) (o : Options) (k : Heap) : Prop where
  fields : ∃ v xs, m.field "configurable_fields" = .ok v ∧ h.list? v = some xs ∧
    k.list? o.fields = some xs
  defaults : ∃ (v : Value) (es : Entries Value), m.field "default_values" = .ok v ∧
    h.dict? v = some es ∧ k.dict? o.defaults = some es
  rules : ∃ (v : Value) (es : Entries Value), m.field "validation_rules" = .ok v ∧
    h.dict? v = some es ∧ k.dict? o.rules = some es
  focus : m.field "focus_areas" = .ok o.focus
  threshold : m.field "severity_threshold" = .ok o.threshold

theorem Options.ofValue_of_fields {configurable defaults rules focus threshold : Value}
    {xs : List Value} {ds rs : Entries Value} (hm : h.recordMapping v = .ok m)
    (hfields : m.field "configurable_fields" = .ok configurable)
    (hxs : h.list? configurable = some xs)
    (hdefaults : m.field "default_values" = .ok defaults) (hds : h.dict? defaults = some ds)
    (hrules : m.field "validation_rules" = .ok rules) (hrs : h.dict? rules = some rs)
    (hfocus : m.field "focus_areas" = .ok focus)
    (hthreshold : m.field "severity_threshold" = .ok threshold) :
    ∃ o k, Options.ofValue h v = .ok (o, k) ∧ h.Extends k ∧ k.list? o.fields = some xs ∧
      k.dict? o.defaults = some ds ∧ k.dict? o.rules = some rs ∧ o.focus = focus ∧
      o.threshold = threshold := by
  let k₁ := (h.store (.list xs)).2
  let k₂ := (k₁.store (.dict ds)).2
  let k₃ := (k₂.store (.dict rs)).2
  have he₁ : h.Extends k₁ := .alloc h _
  have he₂ : k₁.Extends k₂ := .alloc k₁ _
  have he₃ : k₂.Extends k₃ := .alloc k₂ _
  have hrun : Options.ofValue h v = .ok (⟨(h.store (.list xs)).1, (k₁.store (.dict ds)).1,
      (k₂.store (.dict rs)).1, focus, threshold⟩, k₃) := by
    simp only [Options.ofValue, hm, ok_bind, hfields, Heap.newListOr_of_list? (.inr hxs), hdefaults,
      hrules, hfocus, hthreshold]
    rw [Heap.newDictOr_of_dict? (he₁.dict?_of_some hds), ok_bind,
      Heap.newDictOr_of_dict? ((he₁.trans he₂).dict?_of_some hrs)]
    rfl
  exact ⟨_, k₃, hrun, (he₁.trans he₂).trans he₃,
    (he₂.trans he₃).list?_of_some (Heap.list?_store h xs),
    he₃.dict?_of_some (Heap.dict?_store k₁ ds), Heap.dict?_store k₂ rs, rfl, rfl⟩

theorem Options.ofValue_of_accepted (hu : h.Unsealed v) (hm : h.mapping? v = some m)
    (ho : Review.OptionsAccepted h m) :
    ∃ o k, Options.ofValue h v = .ok (o, k) ∧ Options.MadeOf h m o k := by
  obtain ⟨configurable, xs, hconfigurable, hxs, -⟩ := ho.configurable
  obtain ⟨defaults, hdefaults, hdefaultsMap⟩ := ho.defaults
  obtain ⟨rules, hrules, hrulesMap⟩ := ho.rules
  obtain ⟨focus, -, hfocus, -, -⟩ := ho.focus
  obtain ⟨threshold, -, hthreshold, -, -⟩ := ho.threshold
  obtain ⟨ds, hds⟩ := hu.field_dict hm hdefaults hdefaultsMap
  obtain ⟨rs, hrs⟩ := hu.field_dict hm hrules hrulesMap
  have ht : h.truth v = .ok true := by
    rw [Heap.truth_of_mapping? hm,
      Heap.truthy_of_field hm hdefaults (Review.ne_null_of_isMapping hdefaultsMap)]
  obtain ⟨o, k, hrun, -, hfields, hdefaults', hrules', rfl, rfl⟩ :=
    Options.ofValue_of_fields ((Hints.recordMapping_eq_ok ht).2 hm) hconfigurable hxs hdefaults hds
      hrules hrs hfocus hthreshold
  exact ⟨o, k, hrun, ⟨configurable, xs, hconfigurable, hxs, hfields⟩,
    ⟨defaults, ds, hdefaults, hds, hdefaults'⟩, ⟨rules, rs, hrules, hrs, hrules'⟩, hfocus,
    hthreshold⟩

theorem Options.extends_ofValue {o : Options} (hrun : Options.ofValue h v = .ok (o, k)) :
    h.Extends k ∧ h.nodes.size < k.nodes.size := by
  simp only [Options.ofValue, bind_eq_ok, Prod.exists] at hrun
  obtain ⟨m, -, v₁, -, w₁, k₁, hrun₁, v₂, -, w₂, k₂, hrun₂, v₃, -, w₃, k₃, hrun₃, v₄, -, v₅, -,
    hrun⟩ := hrun
  cases hrun
  have he := (Heap.extends_newDictOr hrun₂).trans (Heap.extends_newDictOr hrun₃)
  obtain ⟨xs, hk, -⟩ := Heap.newListOr_eq_ok hrun₁
  cases hk
  refine ⟨(Heap.Extends.alloc h _).trans he, ?_⟩
  have hsize := he.size_le
  rw [Heap.size_alloc] at hsize
  exact hsize

end Options

namespace Prompt

variable {h k l : Heap} {data v : Value} {m : Mapping} {serial : Nat} {p : Prompt}
  {name default : String}

theorem textField_eq (hv : m.field name = .ok v) (hne : v ≠ .null) :
    textField h m name default = (h.text v).map .text := by
  obtain ⟨es, rfl⟩ := Mapping.entries_of_field hv
  cases hl : lookupText name es with
  | none =>
    rw [Mapping.field, Mapping.get, hl] at hv
    exact (hne (Except.ok.inj hv).symm).elim
  | some u =>
    rw [Mapping.field, Mapping.get, hl] at hv
    obtain rfl : u = v := Except.ok.inj hv
    simp only [textField, Mapping.get, hl, ok_bind, Option.getD_some]
    cases h.text u <;> rfl

theorem isOk_textField (hv : m.field name = .ok v)
    (ht : v = .null ∨ ∃ s, v.asText? = some s) :
    ∃ t, textField h m name default = .ok (.text t) := by
  by_cases hne : v = .null
  · obtain ⟨es, rfl⟩ := Mapping.entries_of_field hv
    rw [textField, Mapping.get]
    cases hl : lookupText name es with
    | none => exact ⟨default, rfl⟩
    | some u =>
      rw [Mapping.field, Mapping.get, hl] at hv
      obtain rfl : u = v := Except.ok.inj hv
      exact ⟨"None", by rw [hne]; rfl⟩
  · obtain ⟨s, hs⟩ := ht.resolve_left hne
    obtain ⟨t, ht, -⟩ := Heap.text_of_asText (h := h) hs
    exact ⟨t, by rw [textField_eq hv hne, ht]; rfl⟩

structure MadeOf (h : Heap) (m : Mapping) (serial : Nat) (p : Prompt) (k : Heap) : Prop where
  serial : p.serial = serial
  id : textField h m "id" "" = .ok p.id
  body : ∃ b, m.field "template" = .ok b ∧ p.body = if k.isDict b then b else .null
  hints : ∃ config o k₁ data, m.field "config" = .ok config ∧
    Options.ofValue h config = .ok (o, k₁) ∧ m.field "metadata" = .ok data ∧
      (k₁.truth data = .ok false ∧ p.hints = none ∧ k = k₁ ∨
        k₁.truth data = .ok true ∧ ∃ hints, p.hints = some hints ∧
          Hints.ofValue k₁ data = .ok (hints, k))

theorem hints_eq_ok {given : Bool} {hints : Option Hints} (ht : h.truth data = .ok given)
    (hrun : (if given then (Hints.ofValue h data).map fun r => (some r.1, r.2)
      else pure (none, h)) = .ok (hints, k)) :
    h.truth data = .ok false ∧ hints = none ∧ k = h ∨
      h.truth data = .ok true ∧ ∃ given, hints = some given ∧
        Hints.ofValue h data = .ok (given, k) := by
  cases given with
  | true =>
    obtain ⟨r, hr, he⟩ := map_eq_ok.1 hrun
    cases he
    exact .inr ⟨ht, r.1, rfl, hr⟩
  | false =>
    cases hrun
    exact .inl ⟨ht, rfl, rfl⟩

theorem madeOf_of_ofValue (hrun : Prompt.ofValue h serial data = .ok (p, k)) :
    ∃ m, h.mapping? data = some m ∧ MadeOf h m serial p k := by
  simp only [Prompt.ofValue, bind_ite, bind_eq_ok, Prod.exists] at hrun
  obtain ⟨m, hm, cf, -, cg, -, b, hb, id, hid, given, -, named, -, name, -, df, -, desc, -, c, -,
    version, -, sv, -, config, hconfig, o, k₁, ho, data', hdata, hinted, ht, hints, k₂, hhints,
    author, -, created, -, modified, -, hrun⟩ := hrun
  cases hrun
  exact ⟨m, Heap.asMapping_eq_ok.1 hm, rfl, hid, ⟨b, hb, rfl⟩, config, o, k₁, data', hconfig, ho,
    hdata, hints_eq_ok ht hhints⟩

theorem MadeOf.extends (hp : MadeOf h m serial p k) :
    h.Extends k ∧ h.nodes.size < k.nodes.size := by
  obtain ⟨config, o, k₁, data, -, ho, -, hhints⟩ := hp.hints
  obtain ⟨he, hlt⟩ := Options.extends_ofValue ho
  obtain ⟨-, -, rfl⟩ | ⟨-, hints, -, hrun⟩ := hhints
  · exact ⟨he, hlt⟩
  · have he' := Hints.extends_ofValue hrun
    exact ⟨he.trans he', lt_of_lt_of_le hlt he'.size_le⟩

theorem MadeOf.worded (hp : MadeOf h m serial p k) (ha : Review.Accepted h m) : p.id.Worded := by
  obtain ⟨v, s, hv, hs, hid, -⟩ := ha.id
  have hne : s ≠ "" := by
    intro he
    subst he
    cases hid
  have hnull : v ≠ .null := by
    intro he
    subst he
    cases hs
  obtain ⟨t, ht, htext⟩ := Heap.text_of_asText (h := h) hs
  have hmade := hp.id
  rw [textField_eq hv hnull, ht] at hmade
  exact ⟨t, by rw [← Except.ok.inj hmade]; rfl, htext hne⟩

theorem isOk_hints_iff (hc : h.Closed) (hl : h.Literal data) (he : h.Extends k)
    (hm : h.mapping? data = some m) (hv : m.field "metadata" = .ok v) (ht : k.truthy v = true) :
    (∃ hints l, Hints.ofValue k v = .ok (hints, l)) ↔ Hints.Readable h v := by
  have hheld := hc.holds_field hm hv
  have htrue : k.truth v = .ok true := Heap.truth_eq_ok.2 ⟨hl.isTestable_field hm hv, ht⟩
  rw [Hints.isOk_ofValue_iff htrue, Hints.readable_iff he hc hheld]
  intro m' name w hm' hw
  rw [he.mapping?_eq hheld] at hm'
  exact ⟨he.holds (hc.holds_field hm' hw), (hl.field hm hv).isTestable_field hm' hw⟩

theorem readable_of_ofValue (hc : h.Closed) (hl : h.Literal data) (hm : h.mapping? data = some m)
    (hrun : Prompt.ofValue h serial data = .ok (p, k)) (hv : m.field "metadata" = .ok v)
    (ht : h.truthy v = true) : Hints.Readable h v := by
  obtain ⟨m', hm', hmade⟩ := madeOf_of_ofValue hrun
  obtain rfl := Option.some.inj (hm'.symm.trans hm)
  obtain ⟨config, o, k₁, data', -, ho, hdata, hhints⟩ := hmade.hints
  obtain rfl := Except.ok.inj (hdata.symm.trans hv)
  have he := (Options.extends_ofValue ho).1
  rw [← he.truthy_eq (hc.holds_field hm hv)] at ht
  obtain ⟨hf, -⟩ | ⟨-, hints, -, hrun⟩ := hhints
  · cases ht.symm.trans (Heap.truth_eq_ok.1 hf).2
  · exact (isOk_hints_iff hc hl he hm hv ht).1 ⟨hints, k, hrun⟩

theorem isOk_named {given : Value} {s : String} (hs : given.asText? = some s)
    (hid : ∃ t, textField h m "id" "" = .ok (.text t)) :
    ∃ n, (h.truth given >>= fun named =>
      if named then (h.text given).map Value.text else textField h m "id" "") = .ok n := by
  rw [Heap.truth_eq (Heap.isTestable_of_isText ⟨s, hs⟩), ok_bind]
  split
  · obtain ⟨t, ht, -⟩ := Heap.text_of_asText (h := h) hs
    exact ⟨.text t, by rw [ht]; rfl⟩
  · obtain ⟨t, ht⟩ := hid
    exact ⟨_, ht⟩

theorem isOk_hints (hc : h.Closed) (hl : h.Literal data) (he : h.Extends k)
    (hm : h.mapping? data = some m) (hv : m.field "metadata" = .ok v)
    (hr : h.truthy v = true → Hints.Readable h v) :
    ∃ r, (k.truth v >>= fun hinted =>
      if hinted then (Hints.ofValue k v).map fun r => (some r.1, r.2)
      else pure (none, k)) = Except.ok (ε := Fault) r := by
  rw [Heap.truth_eq (hl.isTestable_field hm hv), ok_bind]
  split
  · next ht =>
    have ht' := ht
    rw [he.truthy_eq (hc.holds_field hm hv)] at ht'
    obtain ⟨hints, l, hrun⟩ := (isOk_hints_iff hc hl he hm hv ht).2 (hr ht')
    exact ⟨_, by rw [hrun]; rfl⟩
  · exact ⟨_, rfl⟩

/-- Of an accepted record a prompt can be made if and only if its hints, where it has some, can be
read. -/
theorem isOk_ofValue_iff (hc : h.Closed) (hl : h.Literal data) (hm : h.mapping? data = some m)
    (ha : Review.Accepted h m) :
    (∃ p k, Prompt.ofValue h serial data = .ok (p, k)) ↔
      ∀ v, m.field "metadata" = .ok v → h.truthy v = true → Hints.Readable h v := by
  constructor
  · intro hrun v hv ht
    obtain ⟨p, k, hrun⟩ := hrun
    exact readable_of_ofValue hc hl hm hrun hv ht
  · intro hr
    obtain ⟨idv, ids, hid, hids, -⟩ := ha.id
    obtain ⟨namev, names, hname, hnames, -⟩ := ha.name
    obtain ⟨descv, descs, hdesc, hdescs, -⟩ := ha.description
    obtain ⟨cv, c, hcategory, hcv⟩ := ha.category
    obtain ⟨schemav, schemas, hschema, hschemas, -⟩ := ha.schema
    obtain ⟨versionv, hversion, hversions⟩ := ha.version
    obtain ⟨b, hb, -⟩ := ha.content
    obtain ⟨config, hconfig, co, hco, hoptions⟩ := ha.given
    obtain ⟨created, modified, hcreated, hmodified, -, -⟩ := ha.dates
    obtain ⟨es, rfl⟩ := Mapping.entries_of_field hb
    obtain ⟨id, hid⟩ : ∃ t, textField h (.entries es) "id" "" = .ok (.text t) :=
      isOk_textField hid (.inr ⟨ids, hids⟩)
    obtain ⟨name, hname'⟩ := isOk_named hnames ⟨id, hid⟩
    have hgeneral : h.orElse cv (.text Category.general.name) = .ok cv := by
      rw [Heap.orElse, Heap.truth_of_toCategory hcv]
      rfl
    have hcategory' : h.asCategory cv = .ok c := by
      rw [Heap.asCategory, hcv]
    obtain ⟨desc, hdesc'⟩ : ∃ desc, h.orElse descv (.text "") = .ok desc :=
      ⟨descv, Heap.orElse_of_isText ⟨_, hdescs⟩⟩
    obtain ⟨version, hversion⟩ :
        ∃ t, textField h (.entries es) "version" "1.0.0" = .ok (.text t) :=
      isOk_textField hversion hversions
    obtain ⟨schema, hschema⟩ :
        ∃ t, textField h (.entries es) "schema_version" "1.0" = .ok (.text t) :=
      isOk_textField hschema (.inr ⟨schemas, hschemas⟩)
    obtain ⟨o, k, ho, -⟩ := Options.ofValue_of_accepted (hl.unsealed.field hm hconfig) hco hoptions
    -- fields without a rule of their own can be read because the record has entries
    have hmetadata : Mapping.field (.entries es) "metadata" =
        .ok ((lookupText "metadata" es).getD .null) := rfl
    have hauthor : Mapping.field (.entries es) "author" =
        .ok ((lookupText "author" es).getD .null) := rfl
    obtain ⟨hints, hhints⟩ :=
      isOk_hints hc hl (Options.extends_ofValue ho).1 hm hmetadata (hr _ hmetadata)
    obtain ⟨named, hnamed, hname'⟩ := bind_eq_ok.1 hname'
    obtain ⟨hinted, hinted', hhints⟩ := bind_eq_ok.1 hhints
    simp only [Prompt.ofValue, bind_ite, bind_eq_ok, Prod.exists]
    exact ⟨_, _, _, Heap.asMapping_eq_ok.2 hm, _, hcategory, _, hgeneral, _, hb, _, hid, _, hname,
      _, hnamed, _, hname', _, hdesc, _, hdesc', _, hcategory', _, hversion, _, hschema, _, hconfig,
      _, _, ho, _, hmetadata, _, hinted', _, _, hhints, _, hauthor, _, hcreated, _, hmodified, rfl⟩

end Prompt

end Promptbook

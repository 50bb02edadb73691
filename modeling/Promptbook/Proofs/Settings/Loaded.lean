import Promptbook.Proofs.Catalog.File
import Promptbook.Proofs.Heap.Shifted
import Promptbook.Proofs.Settings.Assigned
import Promptbook.Settings.Load

namespace Promptbook

def Fault.IsValueError (cause : Fault) : Prop :=
  cause.className ∈ ["ValueError", "UnicodeDecodeError"]

instance (cause : Fault) : Decidable cause.IsValueError :=
  inferInstanceAs (Decidable (_ ∈ _))

/-- A configuration with positive limits in which no count is critical that is not frequent. -/
structure Config.Sound (c : Config) : Prop where
  contextLimit : 0 < c.report.contextLimit
  frequent : 0 < c.report.frequent
  critical : c.report.frequent ≤ c.report.critical
  fieldLimit : 0 < c.review.fieldLimit
  variableLimit : 0 < c.review.variableLimit
  depthLimit : 0 < c.review.depthLimit

namespace Settings

open Promptbook.Heap

variable {h k : Heap} {v overrides : Value} {r o : Ref} {names : List String} {es : Entries Value}
  {t : FileTree} {p q : FilePath} {path : Option FilePath} {cs : List Char} {f : Format}

section Reading

variable {α : Type} {rec : Record} {name : String} {default : α} {read : Value → Checked α}
  {P : α → Prop}

theorem field_of_flawless (hd : P default) (hread : ∀ v, (read v).flaws = [] → P (read v).value)
    (hf : (field rec name default read).flaws = []) : P (field rec name default read).value := by
  unfold field at hf ⊢
  split at hf
  · exact hd
  · exact hread _ (List.map_eq_nil_iff.1 hf)

theorem part_of_flawless {read : Record → Checked α} (hd : P default)
    (hread : ∀ rec, (read rec).flaws = [] → P (read rec).value)
    (hf : (part h rec name default read).flaws = []) : P (part h rec name default read).value := by
  refine field_of_flawless hd (fun v hv => ?_) hf
  cases hm : h.mapping? v with
  | none =>
    rw [hm] at hv
    cases hv
  | some m =>
    rw [hm] at hv
    exact hread _ hv

theorem positive_of_flawless {default : Nat} (hd : 0 < default)
    (hf : (leaf rec name default positive).flaws = []) :
    0 < (leaf rec name default positive).value := by
  refine field_of_flawless (P := (0 < ·)) hd (fun v hv => ?_) hf
  cases hp : positive v with
  | error c =>
    rw [hp] at hv
    cases hv
  | ok n => exact positive_pos hp

end Reading

theorem report_sound {rec : Record} (hf : (report rec).flaws = []) :
    0 < (report rec).value.contextLimit ∧ 0 < (report rec).value.frequent ∧
      (report rec).value.frequent ≤ (report rec).value.critical := by
  have hle : (report rec).value.frequent ≤ (report rec).value.critical :=
    frequent_le_critical (r := rec) (by rw [Checked.toExcept, hf]; rfl)
  simp only [report] at hf
  split at hf
  · cases hf
  · simp only [List.append_eq_nil_iff] at hf
    obtain ⟨⟨⟨-, hcontext⟩, hfrequent⟩, -⟩ := hf
    exact ⟨positive_of_flawless (by decide) hcontext, positive_of_flawless (by decide) hfrequent,
      hle⟩

theorem review_sound {rec : Record} (hf : (review h rec).flaws = []) :
    0 < (review h rec).value.fieldLimit ∧ 0 < (review h rec).value.variableLimit ∧
      0 < (review h rec).value.depthLimit := by
  simp only [review, List.append_eq_nil_iff] at hf
  obtain ⟨⟨⟨hfield, hvariable⟩, hdepth⟩, -⟩ := hf
  exact ⟨positive_of_flawless (by decide) hfield, positive_of_flawless (by decide) hvariable,
    positive_of_flawless (by decide) hdepth⟩

theorem config_sound {rec : Record} {c : Config} (hc : (config h rec).toExcept = .ok c) :
    c.Sound := by
  obtain ⟨hf, rfl⟩ := Checked.toExcept_eq_ok hc
  simp only [config, List.append_eq_nil_iff] at hf
  obtain ⟨⟨⟨hreport, hreview⟩, -⟩, -⟩ := hf
  obtain ⟨hcontext, hfrequent, hcritical⟩ := part_of_flawless
    (P := fun x : ReportSettings => 0 < x.contextLimit ∧ 0 < x.frequent ∧ x.frequent ≤ x.critical)
    (by decide) (fun rec => report_sound) hreport
  obtain ⟨hfield, hvariable, hdepth⟩ := part_of_flawless
    (P := fun x : ReviewSettings => 0 < x.fieldLimit ∧ 0 < x.variableLimit ∧ 0 < x.depthLimit)
    (by decide) (fun rec => review_sound) hreview
  exact ⟨hcontext, hfrequent, hcritical, hfield, hvariable, hdepth⟩

def FailsLawfully {α : Type} (x : Except Fault α) : Prop :=
  ∀ cause, x = .error cause → cause.IsValueError

/-- The text of a file holds nothing, or the reader of its format ends with a document or with an
error of its own or of an invalid value. -/
def Legible (h : Heap) (f : Format) (cs : List Char) : Prop :=
  f = .json ∧ cs.all Text.isBlank ∨
    ∀ cause, f.read h cs = .error (.fault cause) → cause.IsValueError

/-- A path at which it can be seen what is there. If anything is and its suffix is that of a format,
it is a file, and its bytes, if they are a text, are a legible one. -/
def Usable (t : FileTree) (h : Heap) (p : FilePath) : Prop :=
  ∃ q o, p.expand t.home = .ok q ∧ t.look q = .ok o ∧
    ∀ node, o = some node → ∀ f, q.format? = some f → ∃ bytes, node = .file bytes ∧
      ∀ cs, Text.decodeUtf8 bytes = .ok cs → Legible h f (Text.unifyNewlines cs)

theorem failsLawfully_ok {α : Type} (x : α) : FailsLawfully (.ok x) :=
  nofun

theorem failsLawfully_error {α : Type} {cause : Fault} :
    FailsLawfully (.error cause : Except Fault α) ↔ cause.IsValueError :=
  ⟨fun hf => hf cause rfl, fun hc _ he => Except.error.inj he ▸ hc⟩

theorem isValueError_invalid (message : String) : (Fault.invalid message).IsValueError :=
  List.mem_cons_self

theorem isValueError_decoding (cause : Text.Utf8Fault) : (Fault.decoding cause).IsValueError :=
  List.mem_cons_of_mem _ List.mem_cons_self

theorem not_isValueError_file (cause : FileFault) (path : String) :
    ¬ (Fault.file cause path).IsValueError := by
  cases cause <;> simp [Fault.IsValueError, Fault.className, FileFault.className]

theorem documentRecord_failsLawfully_iff :
    FailsLawfully (documentRecord h p f cs) ↔ Legible h f cs := by
  rw [Legible, documentRecord]
  by_cases hblank : f = .json ∧ cs.all Text.isBlank
  · rw [if_pos (by simpa using hblank)]
    exact iff_of_true (failsLawfully_ok _) (.inl hblank)
  · rw [if_neg (by simpa using hblank), or_iff_right hblank]
    cases hr : f.read h cs with
    | error flaw =>
      cases flaw with
      | malformed message =>
        exact iff_of_true (failsLawfully_error.2 (isValueError_invalid _)) nofun
      | fault cause =>
        rw [failsLawfully_error]
        exact ⟨fun hc _ he => Format.Flaw.fault.inj (Except.error.inj he) ▸ hc, fun hc => hc _ rfl⟩
    | ok x =>
      refine iff_of_true ?_ nofun
      split
      · contradiction
      · contradiction
      · exact failsLawfully_ok _
      · split
        · exact failsLawfully_ok _
        · exact failsLawfully_error.2 (isValueError_invalid _)

theorem emptyRecord_eq {l : Heap} (hl : h.Grafts l) (hr : l.store (.dict []) = (v, k)) :
    h.Grafts k ∧ h.Own k v ∧ (k.dict? v).isSome := by
  have hempty : ∀ x ∈ (Node.dict []).elements, h.Own l x := List.forall_mem_nil _
  obtain ⟨hg, hown⟩ := hl.store rfl hempty
  have hdict := dict?_store l []
  rw [hr] at hg hown hdict
  exact ⟨hg, hown, by rw [hdict]; rfl⟩

theorem documentRecord_eq_ok (hr : documentRecord h p f cs = .ok (v, k)) :
    h.Grafts k ∧ h.Own k v ∧ (k.dict? v).isSome := by
  rw [documentRecord] at hr
  split at hr
  · exact emptyRecord_eq (.refl h) (Except.ok.inj hr)
  · split at hr
    · cases hr
    · cases hr
    · next l hread => exact emptyRecord_eq (Format.grafts_read hread).1 (Except.ok.inj hr)
    · next u l _ hread =>
      split at hr
      · next hdict =>
        cases hr
        obtain ⟨hg, hown⟩ := Format.grafts_read hread
        exact ⟨hg, hown, hdict⟩
      · cases hr

theorem fileRecord_eq (hq : p.expand t.home = .ok q) : fileRecord t p h =
    t.look q >>= fun o =>
      match o, q.format? with
      | none, _ => .ok (h.store (.dict []))
      | some _, none => .error (.invalid <|
          s!"Config file must have .yaml, .yml, or .json extension, got: {q.suffix}\n" ++
            s!"File: {q.text}")
      | some _, some f => t.text q >>= documentRecord h q f := by
  rw [fileRecord, hq, ok_bind, FileTree.has]
  cases t.look q with
  | error cause => rfl
  | ok o =>
    cases o with
    | none => rfl
    | some node => cases q.format? <;> rfl

theorem usable_iff {o : Option FileNode} (hq : p.expand t.home = .ok q) (hl : t.look q = .ok o) :
    Usable t h p ↔ ∀ node, o = some node → ∀ f, q.format? = some f → ∃ bytes, node = .file bytes ∧
      ∀ cs, Text.decodeUtf8 bytes = .ok cs → Legible h f (Text.unifyNewlines cs) := by
  constructor
  · rintro ⟨q', o', hq', hl', hall⟩
    cases hq.symm.trans hq'
    cases hl.symm.trans hl'
    exact hall
  · exact fun hall => ⟨q, o, hq, hl, hall⟩

theorem fileRecord_failsLawfully_iff : FailsLawfully (fileRecord t p h) ↔ Usable t h p := by
  cases hq : p.expand t.home with
  | error cause =>
    obtain rfl := FilePath.expand_eq_error hq
    rw [fileRecord, hq]
    refine iff_of_false (fun hf => absurd (failsLawfully_error.1 hf) (by decide)) ?_
    rintro ⟨q, -, hq', -⟩
    cases hq.symm.trans hq'
  | ok q =>
    rw [fileRecord_eq hq]
    cases hl : t.look q with
    | error cause =>
      obtain ⟨c, path, rfl⟩ := FileTree.look_eq_error hl
      refine iff_of_false (fun hf => not_isValueError_file c path (failsLawfully_error.1 hf)) ?_
      rintro ⟨q', o, hq', hl', -⟩
      cases hq.symm.trans hq'
      cases hl.symm.trans hl'
    | ok o =>
      rw [usable_iff hq hl, ok_bind]
      cases o with
      | none => exact iff_of_true (failsLawfully_ok _) nofun
      | some node =>
        simp only [Option.some.injEq, forall_eq']
        cases q.format? with
        | none => exact iff_of_true (failsLawfully_error.2 (isValueError_invalid _)) nofun
        | some f =>
          simp only [Option.some.injEq, forall_eq']
          cases node with
          | directory =>
            rw [FileTree.text_of_directory hl]
            exact iff_of_false (fun hf => not_isValueError_file _ _ (failsLawfully_error.1 hf))
              nofun
          | file bytes =>
            rw [FileTree.text_of_file hl]
            simp only [FileNode.file.injEq, exists_eq_left']
            cases Text.decodeUtf8 bytes with
            | error cause =>
              exact iff_of_true (failsLawfully_error.2 (isValueError_decoding cause)) nofun
            | ok cs =>
              simp only [Except.ok.injEq, forall_eq', ok_bind]
              exact documentRecord_failsLawfully_iff

theorem fileRecord_eq_ok (hr : fileRecord t p h = .ok (v, k)) :
    h.Grafts k ∧ h.Own k v ∧ (k.dict? v).isSome := by
  cases hq : p.expand t.home with
  | error cause =>
    rw [fileRecord, hq] at hr
    cases hr
  | ok q =>
    rw [fileRecord_eq hq, bind_eq_ok] at hr
    obtain ⟨o, -, hr⟩ := hr
    split at hr
    · exact emptyRecord_eq (.refl h) (Except.ok.inj hr)
    · cases hr
    · obtain ⟨cs, -, hr⟩ := bind_eq_ok.1 hr
      exact documentRecord_eq_ok hr

def baseRecord (t : FileTree) (path : Option FilePath) (h : Heap) : Except Fault (Value × Heap) :=
  match path with
  | some p => fileRecord t p h
  | none => .ok (h.store (.dict []))

theorem baseRecord_eq_ok (hr : baseRecord t path h = .ok (v, k)) :
    h.Grafts k ∧ h.Own k v ∧ (k.dict? v).isSome := by
  cases path with
  | none => exact emptyRecord_eq (.refl h) (Except.ok.inj hr)
  | some p => exact fileRecord_eq_ok hr

/-- No overrides, or a dictionary whose keys are texts. -/
def Named (h : Heap) (overrides : Value) : Prop :=
  overrides = .null ∨ ∃ o es, overrides = .ref o ∧ h.get? o = some (.dict es) ∧
    ∀ e ∈ es, ∃ s, e.1.asText? = some s

def Amends (h k : Heap) : Prop :=
  ∀ r es, h.get? r = some (.dict es) → ∃ fs, k.get? r = some (.dict fs) ∧
    ((∀ e ∈ es, ∃ s, e.1.asText? = some s) → ∀ e ∈ fs, ∃ s, e.1.asText? = some s)

theorem Amends.trans {l : Heap} (hk : Amends h k) (hl : Amends k l) : Amends h l := by
  intro r es hes
  obtain ⟨fs, hfs, htexts⟩ := hk r es hes
  obtain ⟨gs, hgs, htexts'⟩ := hl r fs hfs
  exact ⟨gs, hgs, fun hall => htexts' (htexts hall)⟩

theorem amends_put {key x : Value} {s : String} {l : Heap} (hx : h.Extends k)
    (hkey : key.asText? = some s) (hes : h.get? r = some (.dict es)) :
    Amends h (k.set r (.dict (Entries.put l key x es))) := by
  intro q ds hds
  by_cases he : r = q
  · subst he
    obtain rfl := Node.dict.inj (Option.some.inj (hes.symm.trans hds))
    refine ⟨_, get?_set_self (hx.keeps hes), fun hall e hmem => ?_⟩
    rcases Entries.key_of_mem_put hmem with he | ⟨d, hd, he⟩
    · exact ⟨s, he ▸ hkey⟩
    · exact he ▸ hall d hd
  · exact ⟨ds, (get?_set_of_ne he).trans (hx.keeps hds), id⟩

theorem Writes.amends (hw : Writes v h r names k) : Amends h k := by
  induction hw with
  | put hkey hes => exact amends_put (.refl _) hkey hes
  | fill hes _ _ _ ih =>
    exact (amends_put (Extends.alloc _ _) (Value.asText?_text _) hes).trans ih
  | enter _ _ _ _ _ ih => exact ih

theorem applyFrom_ends {ds : Entries Value} {size left : Nat} (hr : h.get? r = some (.dict ds))
    (ho : h.get? o = some (.dict es)) (htexts : ∀ e ∈ es, ∃ s, e.1.asText? = some s)
    {cause : Fault} (hrun : applyFrom o size (.ref r) left h = .error cause) :
    cause = .sizeChanged := by
  induction left generalizing h es ds with
  | zero =>
    simp only [applyFrom, ho] at hrun
    split at hrun
    · cases hrun
    · exact (Except.error.inj hrun).symm
  | succ left ih =>
    simp only [applyFrom, ho] at hrun
    split at hrun
    · exact (Except.error.inj hrun).symm
    · cases he : es[size - (left + 1)]? with
      | none =>
        rw [he] at hrun
        cases hrun
      | some e =>
        obtain ⟨s, hs⟩ := htexts e (List.mem_of_getElem? he)
        obtain ⟨k, hone, hw⟩ := applyOne_writes (v := e.2) hs hr
        obtain ⟨fs, hfs, htexts'⟩ := hw.amends o es ho
        obtain ⟨ds, hds, -⟩ := hw.amends r _ hr
        simp only [he, hone, ok_bind] at hrun
        exact ih hds hfs (htexts' htexts) hrun

theorem override_ends (hn : Named h overrides) (hv : (h.dict? v).isSome) {cause : Fault}
    (hrun : override h v overrides = .error cause) : cause = .sizeChanged := by
  obtain ⟨ds, hds⟩ := Option.isSome_iff_exists.1 hv
  obtain ⟨r, rfl, hr⟩ := exists_of_dict? hds
  rcases hn with rfl | ⟨o, es, rfl, ho, htexts⟩
  · cases hrun
  · rw [override_eq _ ho] at hrun
    exact applyFrom_ends hr ho htexts hrun

theorem Named.mono (hn : Named h overrides) (hx : h.Extends k) : Named k overrides := by
  rcases hn with rfl | ⟨o, es, rfl, ho, htexts⟩
  · exact .inl rfl
  · exact .inr ⟨o, es, rfl, hx.keeps ho, htexts⟩

/-- Loading ends with a sound configuration or is refused for an invalid value. -/
def Lawful : Except Refusal Config → Prop
  | .ok c => c.Sound
  | .error (.fault cause) => cause.IsValueError
  | .error (.flawed _) | .error (.misnamed _) => True

theorem ofRecord_lawful (h : Heap) (v : Value) : Lawful (ofRecord h v) := by
  unfold ofRecord
  dsimp only
  split
  · trivial
  · cases hc : (config h ((h.dict? v).getD [])).toExcept with
    | error flaws => trivial
    | ok c => exact config_sound hc

theorem failsLawfully_bind {α β : Type} {x : Except Fault α} {g : α → Except Fault β} :
    FailsLawfully (x >>= g) ↔ FailsLawfully x ∧ ∀ a, x = .ok a → FailsLawfully (g a) := by
  cases x with
  | error cause => exact ⟨fun hf => ⟨fun c he => hf c (by rw [Except.error.inj he]; rfl), nofun⟩,
      fun ⟨hf, _⟩ c he => hf c (by rw [Except.error.inj he])⟩
  | ok a => simp [failsLawfully_ok]

/-- Only a record that cannot be made keeps loading from being lawful. -/
theorem load_lawful_iff_record :
    Lawful (load t path overrides h) ↔ FailsLawfully (overriddenRecord t path overrides h) := by
  rw [load]
  cases overriddenRecord t path overrides h with
  | error cause => exact failsLawfully_error.symm
  | ok r => exact iff_of_true (ofRecord_lawful r.2 r.1) (failsLawfully_ok r)

theorem overriddenRecord_eq : overriddenRecord t path overrides h =
    baseRecord t path h >>= fun r => override r.2 r.1 overrides >>= fun k => .ok (r.1, k) := by
  cases path <;> rfl

theorem baseRecord_failsLawfully_iff :
    FailsLawfully (baseRecord t path h) ↔ ∀ p, path = some p → Usable t h p := by
  cases path with
  | none => exact iff_of_true (failsLawfully_ok _) nofun
  | some p =>
    rw [baseRecord, fileRecord_failsLawfully_iff]
    simp only [Option.some.injEq, forall_eq']

theorem override_failsLawfully_iff (hn : Named k overrides) (hv : (k.dict? v).isSome) :
    FailsLawfully (override k v overrides) ↔ override k v overrides ≠ .error .sizeChanged := by
  constructor
  · intro hf he
    exact absurd (hf _ he) (by decide)
  · intro hne cause he
    obtain rfl := override_ends hn hv he
    exact absurd he hne

structure Fenced (S : Ref → Prop) (h : Heap) (o : Ref) (es : Entries Value) : Prop where
  closed : ∀ q node, S q → h.get? q = some node → ∀ u ∈ node.elements, ∀ t, u = .ref t → S t
  outside : ¬ S o
  given : h.get? o = some (.dict es)

namespace Fenced

variable {S : Ref → Prop} {ds : Entries Value}

theorem put {key : Value} {s : String} {l : Heap} (hf : Fenced S h o es) (hr : S r)
    (hv : ∀ t, v = .ref t → S t) (hkey : key.asText? = some s) (hds : h.get? r = some (.dict ds)) :
    Fenced S (h.set r (.dict (Entries.put l key v ds))) o es where
  closed q node hq hn u hu t ht := by
    by_cases he : r = q
    · subst he
      cases (get?_set_self hds).symm.trans hn
      rcases Entries.mem_elements_put hu with rfl | rfl | hu
      · rw [ht] at hkey
        cases hkey
      · exact hv t ht
      · exact hf.closed r _ hr hds u hu t ht
    · rw [get?_set_of_ne he] at hn
      exact hf.closed q node hq hn u hu t ht
  outside := hf.outside
  given := by
    have hne : r ≠ o := by
      rintro rfl
      exact hf.outside hr
    rw [get?_set_of_ne hne]
    exact hf.given

theorem alloc (hf : Fenced S h o es) :
    Fenced (fun q => S q ∨ q = (h.alloc (.dict [])).1) (h.alloc (.dict [])).2 o es where
  closed q node hq hn u hu t ht := by
    by_cases he : q = (h.alloc (.dict [])).1
    · subst he
      cases (get?_alloc h _).symm.trans hn
      simp [Node.elements] at hu
    · rw [get?_alloc_of_ne he] at hn
      exact .inl (hf.closed q node (hq.resolve_right he) hn u hu t ht)
  outside := by
    rintro (ho | he)
    · exact hf.outside ho
    · have hgiven := hf.given
      rw [he, get?_alloc_fst] at hgiven
      cases hgiven
  given := get?_alloc_of_some hf.given

theorem writes (hf : Fenced S h o es) (hw : Writes v h r names k) (hr : S r)
    (hv : ∀ t, v = .ref t → S t) : ∃ S' : Ref → Prop, (∀ q, S q → S' q) ∧ Fenced S' k o es := by
  induction hw generalizing S with
  | put hkey hds => exact ⟨S, fun _ => id, hf.put hr hv hkey hds⟩
  | fill hds _ _ _ ih =>
    obtain ⟨S', hle, hf'⟩ := ih (hf.alloc.put (.inl hr) (fun t ht => .inr (Value.ref.inj ht).symm)
      (Value.asText?_text _) (get?_alloc_of_some hds)) (.inr rfl) fun t ht => .inl (hv t ht)
    exact ⟨S', fun q hq => hle q (.inl hq), hf'⟩
  | enter hds _ hu _ _ ih =>
    obtain ⟨e, he, hs⟩ := Option.map_eq_some_iff.1 hu
    exact ih hf (hf.closed _ _ hr hds _
      (Node.mem_elements_entry (List.mem_of_find?_eq_some he)).2 _ hs) hv

theorem applyFrom {cs fs : Entries Value} (hf : Fenced S h o es) (hr : S r)
    (hds : h.get? r = some (.dict ds)) (hvalues : ∀ e ∈ es, ∀ t, e.2 = .ref t → S t)
    (htexts : ∀ e ∈ es, ∃ s, e.1.asText? = some s) (hes : es = cs ++ fs) :
    ∃ k, applyFrom o es.length (.ref r) fs.length h = .ok k := by
  induction fs generalizing S h ds cs with
  | nil => exact ⟨h, applyFrom_end _ hf.given⟩
  | cons e fs ih =>
    have hmem : e ∈ es := by simp [hes]
    obtain ⟨s, hs⟩ := htexts e hmem
    obtain ⟨k, hone, hw⟩ := applyOne_writes (v := e.2) hs hds
    obtain ⟨S', hle, hf'⟩ := hf.writes hw hr (hvalues e hmem)
    obtain ⟨ds', hds', -⟩ := hw.amends r _ hds
    rw [List.length_cons, applyFrom_next _ hf.given hes, hone]
    exact ih hf' (hle r hr) hds' (fun e he t ht => hle t (hvalues e he t ht))
      (by rw [hes, List.append_cons])

end Fenced

/-- Overrides that do not lead back to themselves do not grow while they are applied. -/
theorem override_of_loopless (hc : h.Closed) (ho : h.get? o = some (.dict es))
    (htexts : ∀ e ∈ es, ∃ s, e.1.asText? = some s) (hloop : ∀ e ∈ es, ¬ h.Reaches e.2 o)
    (hrun : baseRecord t path h = .ok (v, k)) : ∃ l, override k v (.ref o) = .ok l := by
  obtain ⟨hg, hown, hdict⟩ := baseRecord_eq_ok hrun
  obtain ⟨ds, hds⟩ := Option.isSome_iff_exists.1 hdict
  obtain ⟨r, rfl, hr⟩ := exists_of_dict? hds
  have hgiven := hg.keeps.keeps ho
  have hf : Fenced (fun q => k.Reaches (.ref r) q ∨ ∃ e ∈ es, k.Reaches e.2 q) k o es := by
    refine ⟨fun q node hq hn u hu t ht => ?_, ?_, hgiven⟩
    · obtain ⟨st, hst⟩ := Node.mem_elements.1 hu
      rw [ht] at hst
      exact hq.imp (fun hq => hq.tail hn hst) fun ⟨e, he, hq⟩ => ⟨e, he, hq.tail hn hst⟩
    · rintro (hreach | ⟨e, he, hreach⟩)
      · rw [hg.reached hown hreach] at ho
        cases ho
      · exact hloop e he ((hg.keeps.reaches_iff hc (hc.holds_entry ho he).2).1 hreach)
  rw [override_eq _ hgiven]
  refine hf.applyFrom (.inl (.refl k r)) hr (fun e he t ht => .inr ⟨e, he, ?_⟩) htexts
    (List.nil_append es).symm
  rw [ht]
  exact .refl k t

/-- Loading ends with a sound configuration or is refused for an invalid value exactly if the path
is usable and the overrides do not grow while they are applied. Overrides that do not lead back to
themselves do not. -/
theorem load_lawful_iff (hn : Named h overrides) :
    (Lawful (load t path overrides h) ↔
      (∀ p, path = some p → Usable t h p) ∧
        ∀ v k, baseRecord t path h = .ok (v, k) →
          override k v overrides ≠ .error .sizeChanged) ∧
      (h.Closed → (∀ o es, overrides = .ref o → h.get? o = some (.dict es) →
          ∀ e ∈ es, ¬ h.Reaches e.2 o) →
        ∀ v k, baseRecord t path h = .ok (v, k) →
          override k v overrides ≠ .error .sizeChanged) := by
  constructor
  · rw [load_lawful_iff_record, overriddenRecord_eq, failsLawfully_bind,
      baseRecord_failsLawfully_iff]
    refine and_congr_right fun _ => ⟨fun hf v k hr => ?_, fun hne r hr => ?_⟩
    · obtain ⟨hg, -, hdict⟩ := baseRecord_eq_ok hr
      exact (override_failsLawfully_iff (hn.mono hg.keeps) hdict).1
        (failsLawfully_bind.1 (hf (v, k) hr)).1
    · obtain ⟨hg, -, hdict⟩ := baseRecord_eq_ok hr
      exact failsLawfully_bind.2 ⟨(override_failsLawfully_iff (hn.mono hg.keeps) hdict).2
        (hne r.1 r.2 hr), fun k _ => failsLawfully_ok _⟩
  · intro hc hloop v k hr he
    rcases hn with rfl | ⟨o, es, rfl, ho, htexts⟩
    · cases he
    · obtain ⟨l, hl⟩ := override_of_loopless hc ho htexts (hloop o es rfl ho) hr
      rw [hl] at he
      cases he

def raised : Heap where
  nodes := #[.dict [(.text "resilience.critical_threshold", .int 20)]]

/-- A file that holds an empty object, with one override. -/
theorem load_lawful_raised :
    Lawful (load (.single [0x7b, 0x7d]) (some .single) (.ref ⟨0⟩) raised) := by
  have hn : Named raised (.ref ⟨0⟩) := .inr ⟨⟨0⟩, _, rfl, rfl, by simp [Value.asText?]⟩
  refine (load_lawful_iff hn).1.2 ⟨fun p hp => ?_,
    (load_lawful_iff hn).2 (by decide) fun o es ho hes e he => ?_⟩
  · cases hp
    refine ⟨.single, some (.file [0x7b, 0x7d]), rfl, rfl, fun node hnode f hf => ?_⟩
    cases hnode
    cases FilePath.format?_single.symm.trans hf
    refine ⟨_, rfl, fun cs hcs => .inr ?_⟩
    have hdecoded : Text.decodeUtf8 [0x7b, 0x7d] = .ok ['{', '}'] := by decide +kernel
    cases hdecoded.symm.trans hcs
    have hparse : Json.parse Heap.walkLimit ['{', '}'] = .ok (.object []) := rfl
    have hunified : Text.unifyNewlines ['{', '}'] = ['{', '}'] := rfl
    intro cause hread
    rw [hunified, Format.read, hparse] at hread
    cases hread
  · cases ho
    cases hes
    rw [List.mem_singleton] at he
    subst he
    rintro ⟨- | ⟨st, ρ⟩, hρ⟩ <;> cases hρ

/-- A file with a text that is tagged as a truth value and is none. -/
def untruthful : FileTree where
  nodes := [(["c.yaml"], .file ("a: !!bool maybe".toList.map fun c => c.toNat.toUInt8))]

/-- Such a file is refused with the failure to look up its text. -/
theorem not_lawful_untruthful :
    load untruthful (some { names := ["c.yaml"] }) .null .empty =
        .error (.fault (.noKey "'maybe'")) ∧
      ¬ Lawful (load untruthful (some { names := ["c.yaml"] }) .null .empty) := by
  have hload : load untruthful (some { names := ["c.yaml"] }) .null .empty =
      .error (.fault (.noKey "'maybe'")) := by decide +kernel
  refine ⟨hload, ?_⟩
  rw [hload]
  change ¬ (Fault.noKey "'maybe'").IsValueError
  decide

end Settings

end Promptbook

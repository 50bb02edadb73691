import Promptbook.Proofs.Catalog.Effective

namespace Promptbook

namespace Review

variable {s : String} {cs : List Char}

/-- A text of letters and digits of ASCII, underscores and hyphens, not empty and not too long. -/
structure IsId (s : String) : Prop where
  given : s ≠ ""
  chars : ∀ c ∈ s.toList, isIdentifierChar c = true
  short : s.length ≤ idLimit

structure IdForm (s : String) : Prop where
  proper : IsId s ↔ s.toList.getLast? ≠ some '\n'
  line : s.toList.getLast? = some '\n' → ∃ i, IsId i ∧ s = i.push '\n' ∧ i.length < idLimit

theorem isIdentifierChar_lineFeed : isIdentifierChar '\n' = false := rfl

theorem IsId.not_line (hs : IsId s) : s.toList.getLast? ≠ some '\n' := by
  intro hlast
  have hc := hs.chars _ (List.mem_of_getLast? hlast)
  rw [isIdentifierChar_lineFeed] at hc
  cases hc

theorem isIdentifier_of_not_line (hlast : cs.getLast? ≠ some '\n') :
    isIdentifier cs = true ↔ cs ≠ [] ∧ ∀ c ∈ cs, isIdentifierChar c = true := by
  simp [isIdentifier, dropFinalNewline, hlast]

theorem isIdentifier_line (cs : List Char) :
    isIdentifier (cs ++ ['\n']) = true ↔ cs ≠ [] ∧ ∀ c ∈ cs, isIdentifierChar c = true := by
  simp [isIdentifier, dropFinalNewline]

theorem ne_empty_of_toList (hne : s.toList ≠ []) : s ≠ "" := by
  intro he
  subst he
  exact hne rfl

theorem idForm_of_isIdentifier (hs : isIdentifier s.toList = true) (hshort : s.length ≤ idLimit) :
    IdForm s := by
  by_cases hlast : s.toList.getLast? = some '\n'
  · obtain ⟨cs, hcs⟩ := List.getLast?_eq_some_iff.1 hlast
    rw [hcs] at hs
    obtain ⟨hne, hchars⟩ := (isIdentifier_line cs).1 hs
    have hs : s = (String.ofList cs).push '\n' := by
      rw [← String.toList_inj, hcs, String.toList_push, String.toList_ofList]
    have hlength : (String.ofList cs).length < idLimit := by
      rw [hs, String.length_push] at hshort
      exact hshort
    refine ⟨iff_of_false (fun hid => hid.not_line hlast) (not_not_intro hlast), fun _ =>
      ⟨.ofList cs, ⟨ne_empty_of_toList ?_, ?_, hlength.le⟩, hs, hlength⟩⟩
    · rwa [String.toList_ofList]
    · rwa [String.toList_ofList]
  · obtain ⟨hne, hchars⟩ := (isIdentifier_of_not_line hlast).1 hs
    exact ⟨iff_of_true ⟨ne_empty_of_toList hne, hchars, hshort⟩ hlast, fun hl => (hlast hl).elim⟩

theorem toList_ne_nil (hne : s ≠ "") : s.toList ≠ [] := by
  intro he
  exact hne (String.toList_eq_nil_iff.1 he)

theorem IdForm.isIdentifier (hs : IdForm s) :
    isIdentifier s.toList = true ∧ s.length ≤ idLimit := by
  by_cases hlast : s.toList.getLast? = some '\n'
  · obtain ⟨i, hi, rfl, hlength⟩ := hs.line hlast
    rw [String.toList_push, String.length_push]
    exact ⟨(isIdentifier_line _).2 ⟨toList_ne_nil hi.given, hi.chars⟩, hlength⟩
  · have hid := hs.proper.2 hlast
    exact ⟨(isIdentifier_of_not_line hlast).2 ⟨toList_ne_nil hid.given, hid.chars⟩, hid.short⟩

/-- The review of an id admits a line feed at its end, and nothing else that an id proper has not. -/
theorem idVerdict_accepts_iff : (idVerdict (.text s)).errors = [] ↔ IdForm s := by
  rw [idVerdict, textRule_of_text (Value.asText?_text s)]
  simp only [Verdict.errors_join, List.flatMap_cons, List.flatMap_nil, List.append_nil,
    List.append_eq_nil_iff, Verdict.errors_errorIf_eq_nil, Bool.not_eq_false',
    decide_eq_false_iff_not, Nat.not_lt]
  exact ⟨fun h => idForm_of_isIdentifier h.1 h.2, IdForm.isIdentifier⟩

end Review

open Review (IdForm IsId)

variable {t : FileTree} {settings : ReviewSettings} {p : FilePath} {s s' : Session} {q : Prompt}
  {h : Heap} {data : Value} {w : Verdict} {m : Mapping} {r : Except String Prompt}

theorem Review.Accepted.hasId (ha : Accepted h m) : m.HasText "id" IdForm := by
  obtain ⟨v, s, hv, hs, hid, hshort⟩ := ha.id
  exact ⟨v, s, hv, hs, idForm_of_isIdentifier hid hshort⟩

namespace Action

theorem idForm_of_loadFile (hrun : (loadFile t settings p).run.run s = (.ok q, s')) :
    ∃ i, q.id = .text i ∧ IdForm i := by
  obtain ⟨data, k, w, hread, hreview, hw, hmade⟩ := loadFile_eq_ok hrun
  obtain ⟨hg, hown, -⟩ := Definition.read_eq_ok hread
  obtain ⟨m, hm, ha⟩ := Review.record_accepts hreview hw
  obtain ⟨m', hm', hmade⟩ := Prompt.madeOf_of_ofValue hmade
  obtain rfl := Option.some.inj (hm'.symm.trans hm)
  obtain ⟨v, i, hv, hi, hform⟩ := ha.hasId
  obtain rfl := (hg.literal hown).field_text hm hv hi
  have hid := hmade.id
  rw [Prompt.textField_eq hv (by rintro ⟨⟩), Heap.text_text] at hid
  exact ⟨i, (Except.ok.inj hid).symm, hform⟩

theorem idForm_of_gave {reporting : Bool} (hg : Gave t settings reporting h p (.ok q)) :
    ∃ i, Registry.idText q = some i ∧ IdForm i := by
  obtain ⟨u, -, hrun⟩ := hg
  generalize hload : (loadFile t settings p).run.run u = o at hrun
  obtain ⟨o, u'⟩ := o
  obtain rfl : o = .ok q := hrun
  obtain ⟨i, hid, hform⟩ := idForm_of_loadFile hload
  exact ⟨i, congrArg Value.asText? hid, hform⟩

theorem Registered.idText_of_mem {qs : List Prompt} {noted : Entries Prompt}
    (hr : Registered qs noted s) {e : Value × Prompt} (he : e ∈ s.registry.entries) :
    e.2 ∈ qs ∧ Registry.idText e.2 = e.1.asText? := by
  obtain ⟨n, hn, hfind⟩ := (hr.keeps.under _ _).1 ⟨e, he, rfl, rfl⟩
  obtain ⟨i, hi, hq⟩ := Option.bind_eq_some_iff.1 hfind
  have hin : i = n := by
    rw [Holdings.idOf] at hi
    split at hi
    · exact (Option.some.inj hi).symm
    · cases hi
  obtain ⟨hmem, hid⟩ := Prompt.of_last? hq
  exact ⟨hmem, by rw [hid, hn, hin]⟩

theorem idForm_of_loadAll {reporting : Bool} {c : Catalog} {loaded : Loaded}
    (hr : s.registry = {}) (hrun : (loadAll reporting t c).run.run s = (.ok loaded, s')) :
    ∀ e ∈ s'.registry.entries, ∃ i, e.1.asText? = some i ∧ IdForm i := by
  obtain ⟨⟨noted, errors⟩, u, hload, hafter⟩ := run_bind_eq_ok.1 hrun
  obtain ⟨found, hfound, -, hu⟩ := loadDirectories_found (registered_nil hr) hload
  cases hafter
  intro e he
  obtain ⟨hmem, hid⟩ := hu.idText_of_mem he
  rw [List.nil_append, List.mem_flatMap] at hmem
  obtain ⟨xs, hxs, hmem⟩ := hmem
  obtain ⟨x, hx, hresult⟩ := List.mem_filterMap.1 hmem
  have hgave := hfound.gave xs hxs x hx
  cases hr : x.result with
  | error message =>
    rw [hr] at hresult
    cases hresult
  | ok q =>
    rw [hr] at hresult hgave
    obtain ⟨i, hi, hform⟩ := idForm_of_gave hgave
    obtain rfl := Option.some.inj hresult
    exact ⟨i, hid.symm.trans hi, hform⟩

end Action

namespace Catalog

def idIn (h : Heap) (data : Value) : Value :=
  match h.mapping? data with
  | some m => (m.field "id").toOption.getD .null
  | none => .null

/-- Values that got past a review as ids: in records, in prompts that files give, and as keys of
catalogs that are loaded into empty registries. -/
inductive Admitted : Value → Prop
  | record {settings : ReviewSettings} {h : Heap} {data : Value} {w : Verdict} :
      Review.record settings h data = .ok w → w.errors = [] → Admitted (idIn h data)
  | file {t : FileTree} {settings : ReviewSettings} {p : FilePath} {s s' : Session} {q : Prompt} :
      (Action.loadFile t settings p).run.run s = (.ok q, s') → Admitted q.id
  | key {reporting : Bool} {t : FileTree} {c : Catalog} {s s' : Session} {loaded : Loaded}
      {e : Value × Prompt} : s.registry = {} →
      (Action.loadAll reporting t c).run.run s = (.ok loaded, s') → e ∈ s'.registry.entries →
      Admitted e.1

variable {v : Value}

theorem Admitted.idForm (hv : Admitted v) : ∃ i, v.asText? = some i ∧ IdForm i := by
  cases hv with
  | record hreview hw =>
    obtain ⟨m, hm, ha⟩ := Review.record_accepts hreview hw
    obtain ⟨u, i, hu, hi, hform⟩ := ha.hasId
    refine ⟨i, ?_, hform⟩
    simp only [idIn, hm, hu]
    exact hi
  | file hrun =>
    obtain ⟨i, hid, hform⟩ := Action.idForm_of_loadFile hrun
    exact ⟨i, congrArg Value.asText? hid, hform⟩
  | key hr hrun he => exact Action.idForm_of_loadAll hr hrun _ he

/-- What gets past a review as an id is a text, and an id proper exactly if it does not end in a line
feed. If it does, the text before is an id proper. -/
theorem Admitted.isId_iff (hv : Admitted v) : ∃ i, v.asText? = some i ∧
    (IsId i ↔ i.toList.getLast? ≠ some '\n') ∧
    (i.toList.getLast? = some '\n' → ∃ j, IsId j ∧ i = j.push '\n' ∧ j.length < Review.idLimit) := by
  obtain ⟨i, hi, hform⟩ := hv.idForm
  exact ⟨i, hi, hform.proper, hform.line⟩

def noteData (id : String) : Json :=
  .object [("id", .text id), ("name", .text "Note"), ("description", .text ""),
    ("category", .text "general"), ("schema_version", .text "1.0"),
    ("template", .object [("task", .text "Write"), ("instructions", .text "Be brief"),
      ("context", .object [("tone", .text "warm")]),
      ("output_format", .object [("structure", .text "text")]), ("variables", .list [])]),
    ("config", .object [("configurable_fields", .list []), ("default_values", .object []),
      ("validation_rules", .object [])])]

def noteTree (id : String) : FileTree :=
  .single ((noteData id).renderLine.map fun c => .ofNat c.toNat)

def note (id : String) : Value × Heap :=
  Heap.empty.ofJson (noteData id)

/-- The definition is read from its file, accepted without a remark, and made into a prompt. -/
structure NoteLoads (id : String) : Prop where
  read : Definition.read (noteTree id) .single .empty = .ok (note id)
  review : Review.record {} (note id).2 (note id).1 = .ok .clean
  made : ((Prompt.ofValue (note id).2 (note id).2.nodes.size (note id).1).map fun r => r.1.id) =
    .ok (.text id)

theorem NoteLoads.loadFile {id : String} (hn : NoteLoads id) :
    ∃ q s', (Action.loadFile (noteTree id) {} .single).run.run {} = (.ok q, s') ∧
      q.id = .text id := by
  obtain ⟨r, hr, hid⟩ := map_eq_ok.1 hn.made
  obtain ⟨lines, hrun⟩ := Action.run_loadFile (noteTree id) {} .single {}
  have hread : Definition.read (noteTree id) .single ({} : Session).heap = .ok (note id) := hn.read
  simp only [hread, hn.review, hr] at hrun
  exact ⟨_, _, hrun, hid⟩

theorem noteLoads_note : NoteLoads "note" where
  read := by decide +kernel
  review := by decide +kernel
  made := by decide +kernel

theorem isId_iff_note : idIn (note "note").2 (note "note").1 = .text "note" ∧
    Admitted (.text "note") ∧ ∃ i, (Value.text "note").asText? = some i ∧
      (IsId i ↔ i.toList.getLast? ≠ some '\n') ∧
      (i.toList.getLast? = some '\n' →
        ∃ j, IsId j ∧ i = j.push '\n' ∧ j.length < Review.idLimit) := by
  have hid : idIn (note "note").2 (note "note").1 = .text "note" := by decide +kernel
  have hadmitted : Admitted (.text "note") := hid ▸ .record noteLoads_note.review rfl
  exact ⟨hid, hadmitted, hadmitted.isId_iff⟩

/-- The definition is accepted with a line feed at the end of its id. -/
theorem not_admitted_isId : NoteLoads "note\n" ∧
    ¬ ∀ v, Admitted v → ∃ i, v.asText? = some i ∧ IsId i := by
  have hn : NoteLoads "note\n" := ⟨by decide +kernel, by decide +kernel, by decide +kernel⟩
  refine ⟨hn, fun hall => ?_⟩
  obtain ⟨q, s', hload, hq⟩ := hn.loadFile
  obtain ⟨i, hi, hid⟩ := hall q.id (.file hload)
  rw [hq] at hi
  obtain rfl := Option.some.inj hi
  exact hid.not_line (by decide)

end Catalog

end Promptbook

import Promptbook.Proofs.Catalog.Modes
import Promptbook.Proofs.Registry.Simulation

namespace Promptbook

open Registry (idText Keeps)
open Entries (Keyed Under)

namespace Prompt

variable {p q : Prompt} {qs : List Prompt} {id : String}

def last? (id : String) (qs : List Prompt) : Option Prompt :=
  qs.reverse.find? fun q => idText q = some id

theorem last?_snoc : last? id (qs ++ [p]) = if idText p = some id then some p else last? id qs := by
  by_cases hp : idText p = some id <;> simp [last?, hp]

theorem of_last? (hq : last? id qs = some q) : q ∈ qs ∧ idText q = some id := by
  refine ⟨List.mem_reverse.1 (List.mem_of_find?_eq_some hq), ?_⟩
  simpa using List.find?_some hq

theorem exists_last?_iff : (∃ q, last? id qs = some q) ↔ ∃ q ∈ qs, idText q = some id := by
  rw [← Option.isSome_iff_exists, last?, List.find?_isSome]
  simp

end Prompt

namespace Holdings

variable {p q : Prompt} {qs : List Prompt} {id : String}

/-- What registering prompts under their ids, one after the other, makes of empty holdings. -/
def ofPrompts (qs : List Prompt) : Holdings where
  prompts id := Prompt.last? id qs
  aliases _ := none

theorem ofPrompts_snoc (hi : idText p = some id) :
    ofPrompts (qs ++ [p]) = (ofPrompts qs).register id id p := by
  rw [register, if_pos rfl, ofPrompts, mk.injEq]
  refine ⟨funext fun k => ?_, rfl⟩
  rw [Prompt.last?_snoc, hi, Function.update_apply]
  by_cases hk : k = id
  · rw [if_pos hk, if_pos (congrArg some hk.symm)]
  · rw [if_neg hk, if_neg fun he => hk (Option.some.inj he).symm]
    rfl

end Holdings

theorem Registry.Keeps.mono {K L : Prompt → Prop} {r : Registry} {qs : List Prompt}
    (hk : Keeps K r (.ofPrompts qs)) (hL : ∀ q, K q → L q) : Keeps L r (.ofPrompts qs) where
  stocked := ⟨hk.stocked.keyed, fun q hq => hL q (hk.stocked.registered q hq),
    fun c q hq => hL q (hk.stocked.shelved c q hq), hk.stocked.nodup⟩
  tidy := hk.tidy
  sound := hk.sound
  under := hk.under
  outside n id ha := by cases ha

namespace Action

open Prompt (Fresh last?)

variable {t : FileTree} {settings : ReviewSettings} {s s' : Session} {p q : Prompt}
  {ps qs : List Prompt} {noted noted' : Entries Prompt} {hi : Nat}

structure Notes (noted : Entries Prompt) (qs : List Prompt) : Prop where
  keyed : Keyed noted
  under : ∀ t q, Under noted t q ↔ ∃ id, t = some id ∧ last? id qs = some q

theorem notes_nil : Notes [] [] where
  keyed := Entries.keyed_nil
  under t q := by simp [last?]

theorem Notes.put {h : Heap} (hn : Notes noted qs) (hw : p.id.Worded) :
    Notes (Entries.put h p.id p noted) (qs ++ [p]) where
  keyed := hn.keyed.put hw
  under t q := by
    have ⟨i, hi, _⟩ := hw
    have hp : idText p = some i := hi
    rw [hn.keyed.under_put hw, hn.under, hi]
    constructor
    · intro h
      rcases h with ⟨ht, rfl⟩ | ⟨ht, id, rfl, hq⟩
      · exact ⟨i, ht, by rw [Prompt.last?_snoc, if_pos hp]⟩
      · refine ⟨id, rfl, ?_⟩
        rw [Prompt.last?_snoc, if_neg fun he => ht (he.symm.trans hp), hq]
    · intro h
      obtain ⟨id, rfl, hq⟩ := h
      rw [Prompt.last?_snoc, hp] at hq
      split at hq
      · next he => exact .inl ⟨he.symm, (Option.some.inj hq).symm⟩
      · next he => exact .inr ⟨fun h => he h.symm, id, rfl, hq⟩

theorem Notes.mem_iff (hn : Notes noted qs) :
    q ∈ noted.map (·.2) ↔ ∃ id, last? id qs = some q := by
  rw [List.mem_map]
  constructor
  · intro h
    obtain ⟨e, he, rfl⟩ := h
    obtain ⟨id, -, hq⟩ := (hn.under _ _).1 ⟨e, he, rfl, rfl⟩
    exact ⟨id, hq⟩
  · intro h
    obtain ⟨id, hq⟩ := h
    obtain ⟨e, he, -, rfl⟩ := (hn.under (some id) q).2 ⟨id, rfl, hq⟩
    exact ⟨e, he, rfl⟩

theorem Notes.nodup (hn : Notes noted qs) : ((noted.map (·.2)).map idText).Nodup := by
  have hkeys : (noted.map (·.2)).map idText = noted.map fun e => e.1.asText? := by
    rw [List.map_map]
    apply List.map_congr_left
    intro e he
    obtain ⟨id, hid, hq⟩ := (hn.under _ _).1 ⟨e, he, rfl, rfl⟩
    exact (Prompt.of_last? hq).2.trans hid.symm
  exact hkeys ▸ hn.keyed.nodup

theorem run_register (hw : p.id.Worded) : ∃ lines, (register p.id (some p)).run.run s =
    (.ok (), { s with registry := (s.registry.register s.heap p.id (some p)).1, lines }) := by
  have ⟨i, hi, _⟩ := hw
  obtain ⟨shown, hshown, -⟩ := Heap.text_of_asText (h := s.heap) hi
  have hok : (s.registry.register s.heap p.id (some p)).2 = .ok () := by
    simp [Registry.register, hw.truth, hw.checkKey]
  have hrun : (register p.id (some p)).run.run s = (do
      read fun _ => (s.registry.register s.heap p.id (some p)).2
      let id ← read fun h => h.text p.id
      let shown ← read fun h => h.text p.id
      log .debug s!"Registered prompt '{id}' as '{shown}'" : Action Unit).run.run
        { s with registry := (s.registry.register s.heap p.id (some p)).1 } := rfl
  rw [hrun, run_bind_ok (run_read_eq_ok.2 ⟨hok, rfl⟩),
    run_bind_ok (run_read_eq_ok.2 ⟨hshown, rfl⟩), run_bind_ok (run_read_eq_ok.2 ⟨hshown, rfl⟩)]
  exact ⟨_, run_log _ _ _⟩

structure Registered (qs : List Prompt) (noted : Entries Prompt) (s : Session) : Prop where
  fresh : Fresh 0 s.heap.nodes.size qs
  keeps : Keeps (· ∈ qs) s.registry (.ofPrompts qs)
  notes : Notes noted qs

theorem registered_nil (hr : s.registry = {}) : Registered [] [] s where
  fresh := Prompt.fresh_nil _ _
  keeps := by
    rw [hr]
    exact Registry.keeps_empty
  notes := notes_nil

theorem registerEach_registered (hr : Registered qs noted s)
    (hf : Fresh 0 s.heap.nodes.size (qs ++ ps)) :
    ∃ noted' s', (registerEach noted ps).run.run s = (.ok noted', s') ∧ s'.heap = s.heap ∧
      s'.respond = s.respond ∧ Registered (qs ++ ps) noted' s' := by
  induction ps generalizing qs noted s with
  | nil => exact ⟨noted, s, rfl, rfl, rfl, by rwa [List.append_nil]⟩
  | cons p ps ih =>
    have hsnoc : qs ++ p :: ps = (qs ++ [p]) ++ ps := by simp
    rw [hsnoc] at hf ⊢
    have hp : p ∈ qs ++ [p] := List.mem_append_right _ (List.mem_singleton.2 rfl)
    have hfresh : Fresh 0 s.heap.nodes.size (qs ++ [p]) := hf.left
    have hw := hfresh.worded p hp
    have ⟨i, hi, _⟩ := hw
    obtain ⟨lines, hrun⟩ := run_register (s := s) hw
    have hkeeps := (hr.keeps.mono (L := (· ∈ qs ++ [p])) fun q hq => List.mem_append_left _ hq)
      |>.register (h := s.heap) hfresh.family hw hp hi hi (.inl hi.symm)
    rw [← Holdings.ofPrompts_snoc hi] at hkeeps
    have hnext : Registered (qs ++ [p]) (Entries.put s.heap p.id p noted)
        { s with registry := (s.registry.register s.heap p.id (some p)).1, lines } :=
      ⟨hfresh, hkeeps, hr.notes.put hw⟩
    obtain ⟨noted', s', hrun', hheap, hrespond, hr'⟩ := ih hnext hf
    exact ⟨noted', s', (run_bind_ok hrun).trans hrun', hheap, hrespond, hr'⟩

section Directories

variable {reporting : Bool} {directories : List FilePath} {found : List (List Trial)}
  {errors : List String}

/-- The trials of the directories of a list, one after the other. -/
structure Found (t : FileTree) (settings : ReviewSettings) (reporting : Bool) (h : Heap)
    (directories : List FilePath) (found : List (List Trial)) : Prop where
  sought : directories.map (Catalog.sought t) = found.map fun xs => .ok (xs.map Trial.path)
  gave : ∀ xs ∈ found, ∀ x ∈ xs, Gave t settings reporting h x.path x.result

theorem Found.exists_sought {h : Heap} (hf : Found t settings reporting h directories found) :
    ∀ directory ∈ directories, ∃ ps, Catalog.sought t directory = .ok ps := by
  intro directory hd
  have hmem := List.mem_map_of_mem (f := Catalog.sought t) hd
  rw [hf.sought] at hmem
  obtain ⟨xs, -, hxs⟩ := List.mem_map.1 hmem
  exact ⟨_, hxs.symm⟩

theorem Found.reverse {h : Heap} (hf : Found t settings reporting h directories found) :
    Found t settings reporting h directories.reverse found.reverse where
  sought := by rw [List.map_reverse, List.map_reverse, hf.sought]
  gave xs hxs := hf.gave xs (List.mem_reverse.1 hxs)

theorem registerEach_loaded {loaded : Loaded} {directory : FilePath} (hr : Registered qs noted s)
    (hload : (loadDirectory reporting t settings directory).run.run s = (.ok loaded, s')) :
    ∃ xs noted' v, loaded = Trial.loaded xs ∧
      Catalog.sought t directory = .ok (xs.map Trial.path) ∧
      (∀ x ∈ xs, Gave t settings reporting s.heap x.path x.result) ∧
      (registerEach noted loaded.prompts).run.run s' = (.ok noted', v) ∧
      s.heap.Extends v.heap ∧ v.respond = s.respond ∧
      Registered (qs ++ Trial.prompts xs) noted' v := by
  obtain ⟨ps, xs, hps, hbatch, rfl⟩ := loadDirectory_batch hload
  have hsize := hbatch.grows.heap.size_le
  have hs' : Registered qs noted s' :=
    ⟨hr.fresh.grow hsize, hbatch.grows.registry ▸ hr.keeps, hr.notes⟩
  obtain ⟨noted', v, hrun, hheap, hrespond, hv⟩ :=
    registerEach_registered hs' (hr.fresh.append hbatch.fresh (Nat.zero_le _) hsize)
  exact ⟨xs, noted', v, rfl, hbatch.paths ▸ hps, hbatch.gave, hrun, hheap ▸ hbatch.grows.heap,
    hrespond.trans hbatch.grows.respond, hv⟩

theorem loadDirectories_found (hr : Registered qs noted s)
    (hrun : (loadDirectories reporting t settings noted directories).run.run s =
      (.ok (noted', errors), s')) :
    ∃ found, Found t settings reporting s.heap directories found ∧
      errors = found.flatMap Trial.errors ∧
      Registered (qs ++ found.flatMap Trial.prompts) noted' s' := by
  induction directories generalizing qs noted noted' s s' errors with
  | nil =>
    cases hrun
    refine ⟨[], ⟨rfl, List.forall_mem_nil _⟩, rfl, ?_⟩
    rwa [List.flatMap_nil, List.append_nil]
  | cons directory directories ih =>
    obtain ⟨loaded, u, hload, hafter⟩ := run_bind_eq_ok.1 hrun
    obtain ⟨xs, noted₁, v, rfl, hsought, hgave, hregister, hheap, -, hv⟩ :=
      registerEach_loaded hr hload
    rw [run_bind_ok hregister] at hafter
    obtain ⟨⟨noted₂, errors⟩, w, hrest, hreturn⟩ := run_bind_eq_ok.1 hafter
    obtain ⟨found, hfound, rfl, hw⟩ := ih hv hrest
    cases hreturn
    rw [List.append_assoc] at hw
    refine ⟨xs :: found, ⟨List.cons_eq_cons.2 ⟨hsought, hfound.sought⟩,
      List.forall_mem_cons.2 ⟨hgave, fun ys hys y hy => ?_⟩⟩, rfl, hw⟩
    exact (hfound.gave ys hys y hy).earlier hheap

theorem loadDirectories_fails {e : Failure} (hr : Registered qs noted s)
    (hrun : (loadDirectories reporting t settings noted directories).run.run s = (.error e, s')) :
    (∃ directory ∈ directories, ∃ cause, Catalog.sought t directory = .error cause ∧
      e = .fault cause) ∨ reporting = true ∧ s.CutShort e := by
  induction directories generalizing qs noted s with
  | nil => cases hrun
  | cons directory directories ih =>
    obtain hload | ⟨loaded, u, hload, hafter⟩ := run_bind_eq_error hrun
    · exact (loadDirectory_fails hload).imp_left fun hd => ⟨directory, List.mem_cons_self, hd⟩
    · obtain ⟨xs, noted', v, -, -, -, hregister, hheap, hrespond, hv⟩ :=
        registerEach_loaded hr hload
      rw [run_bind_ok hregister] at hafter
      obtain hrest | ⟨_, w, -, hreturn⟩ := run_bind_eq_error hafter
      · refine (ih hv hrest).imp (fun hd => ?_)
          (And.imp_right fun he => he.earlier hrespond hheap)
        obtain ⟨d, hmem, hd⟩ := hd
        exact ⟨d, List.mem_cons_of_mem _ hmem, hd⟩
      · cases hreturn

end Directories

end Action

namespace Catalog

open Prompt (last?)

variable {t : FileTree} {c : Catalog} {s s' : Session} {found : List (List Trial)} {q : Prompt}
  {id : String} {loaded : Loaded} {reporting : Bool}

/-- The last prompt of an id in the first directory that has one. -/
def foremost? (found : List (List Trial)) (id : String) : Option Prompt :=
  found.findSome? fun xs => last? id (Trial.prompts xs)

theorem idText_of_foremost? (hq : foremost? found id = some q) : idText q = some id := by
  obtain ⟨xs, -, hxs⟩ := List.exists_of_findSome?_eq_some hq
  exact (Prompt.of_last? hxs).2

/-- The first directory counts most if it is gone through last. -/
theorem last?_flatMap_reverse :
    last? id (found.reverse.flatMap Trial.prompts) = foremost? found id := by
  induction found with
  | nil => rfl
  | cons xs found ih =>
    rw [List.reverse_cons, List.flatMap_append, List.flatMap_singleton, last?,
      List.reverse_append, List.find?_append, foremost?, List.findSome?_cons]
    rw [last?] at ih
    rw [ih, last?]
    cases (Trial.prompts xs).reverse.find? fun q => idText q = some id with
    | none => rfl
    | some q => rfl

/-- What loading a catalog comes to, given what came of the files in each directory: the prompts
are the foremost of each id, an id is there if a file gave a prompt of it, the errors of the last
directory come first, and the registry shows the prompts and nothing else. -/
structure Effective (c : Catalog) (reporting : Bool) (t : FileTree) (h : Heap)
    (found : List (List Trial)) (loaded : Loaded) (s' : Session) : Prop where
  files : Action.Found t c.settings reporting h c.directories found
  nodup : (loaded.prompts.map idText).Nodup
  prompts : ∀ q, q ∈ loaded.prompts ↔ ∃ id, foremost? found id = some q
  ids : ∀ id, (∃ q ∈ loaded.prompts, idText q = some id) ↔
    ∃ xs ∈ found, ∃ q ∈ Trial.prompts xs, idText q = some id
  errors : loaded.errors = found.reverse.flatMap Trial.errors
  shows : s'.registry.Shows s'.heap ⟨foremost? found, fun _ => none⟩

theorem ofPrompts_foremost :
    Holdings.ofPrompts (found.reverse.flatMap Trial.prompts) =
      ⟨foremost? found, fun _ => none⟩ := by
  rw [Holdings.ofPrompts, Holdings.mk.injEq]
  exact ⟨funext fun id => last?_flatMap_reverse, rfl⟩

theorem effective_of_loadAll (hr : s.registry = {})
    (hrun : (Action.loadAll reporting t c).run.run s = (.ok loaded, s')) :
    ∃ found, c.Effective reporting t s.heap found loaded s' := by
  obtain ⟨⟨noted, errors⟩, u, hload, hafter⟩ := Action.run_bind_eq_ok.1 hrun
  obtain ⟨last, hfound, rfl, hu⟩ := Action.loadDirectories_found (Action.registered_nil hr) hload
  cases hafter
  have hfiles := hfound.reverse
  rw [List.reverse_reverse] at hfiles
  have hmem : ∀ q, q ∈ noted.map (·.2) ↔ ∃ id, foremost? last.reverse id = some q := by
    intro q
    rw [hu.notes.mem_iff]
    simp only [← last?_flatMap_reverse, List.reverse_reverse, List.nil_append]
  have hshows := hu.keeps.shows (h := u.heap) hu.fresh.family
  rw [List.nil_append, ← List.reverse_reverse last, ofPrompts_foremost] at hshows
  refine ⟨last.reverse, hfiles, hu.notes.nodup, hmem, fun id => ?_, ?_, hshows⟩
  · have hlast : (∃ q, Prompt.last? id (last.flatMap Trial.prompts) = some q) ↔
        ∃ q ∈ last.flatMap Trial.prompts, Registry.idText q = some id := Prompt.exists_last?_iff
    simp only [List.mem_flatMap] at hlast
    simp only [hu.notes.mem_iff, List.nil_append, List.mem_reverse]
    constructor
    · intro h
      obtain ⟨q, ⟨i, hq⟩, hid⟩ := h
      obtain ⟨⟨xs, hxs, hq⟩, -⟩ := (Prompt.of_last? hq).imp_left List.mem_flatMap.1
      exact ⟨xs, hxs, q, hq, hid⟩
    · intro h
      obtain ⟨xs, hxs, q, hq, hid⟩ := h
      obtain ⟨q', hq'⟩ := hlast.2 ⟨q, ⟨xs, hxs, hq⟩, hid⟩
      exact ⟨q', ⟨id, hq'⟩, (Prompt.of_last? hq').2⟩
  · rw [List.reverse_reverse]

/-- How the load of a catalog ends: it comes to the foremost definitions, or a directory cannot be
looked up, or a report on a file is cut short. If no report can be, it returns if and only if every
directory can be looked up. -/
structure Ends (c : Catalog) (reporting : Bool) (t : FileTree) (s : Session)
    (run : Except Failure Loaded × Session) : Prop where
  effective : ∀ loaded, run.1 = .ok loaded →
    ∃ found, c.Effective reporting t s.heap found loaded run.2
  fails : ∀ e, run.1 = .error e →
    (∃ directory ∈ c.directories, ∃ cause, sought t directory = .error cause ∧ e = .fault cause) ∨
      reporting = true ∧ s.CutShort e
  returns_iff : (reporting = true → ∀ e, ¬ s.CutShort e) →
    ((∃ loaded, run.1 = .ok loaded) ↔ ∀ directory ∈ c.directories, ∃ ps, sought t directory = .ok ps)

theorem loadAll_fails {e : Failure} (hr : s.registry = {})
    (hrun : (Action.loadAll reporting t c).run.run s = (.error e, s')) :
    (∃ directory ∈ c.directories, ∃ cause, sought t directory = .error cause ∧ e = .fault cause) ∨
      reporting = true ∧ s.CutShort e := by
  obtain hload | ⟨_, u, -, hreturn⟩ := Action.run_bind_eq_error hrun
  · simpa only [List.mem_reverse] using
      Action.loadDirectories_fails (Action.registered_nil hr) hload
  · cases hreturn

theorem ends_loadAll (hr : s.registry = {}) :
    c.Ends reporting t s ((Action.loadAll reporting t c).run.run s) := by
  rcases hrun : (Action.loadAll reporting t c).run.run s with ⟨e | loaded, s'⟩
  · have hfails := loadAll_fails hr hrun
    refine ⟨fun loaded hl => (by cases hl), fun e' he => ?_, fun hshort => ?_⟩
    · cases he
      exact hfails
    · refine iff_of_false (fun ⟨loaded, hl⟩ => (by cases hl)) fun hall => ?_
      obtain ⟨directory, hd, cause, hcause, -⟩ | ⟨hreporting, he⟩ := hfails
      · obtain ⟨ps, hps⟩ := hall directory hd
        cases hcause.symm.trans hps
      · exact hshort hreporting e he
  · have heffective := effective_of_loadAll hr hrun
    refine ⟨fun loaded' hl => ?_, fun e he => (by cases he), fun _ => ?_⟩
    · cases hl
      exact heffective
    · obtain ⟨found, hfound⟩ := heffective
      exact iff_of_true ⟨loaded, rfl⟩ hfound.files.exists_sought

theorem run_reload : (Action.reload reporting t c).run.run s =
    (Action.loadAll reporting t c).run.run { s with registry := {} } :=
  Action.run_bind_ok rfl

def twofold : Catalog where
  directories := [{ names := ["own"] }, { names := ["base"] }]

theorem loaded_twofold : ((Action.loadAll true .twofold twofold).run.run .grumbling).1.toOption.map
    (fun l => (l.prompts.map fun p => (p.id, p.name), l.errors)) =
      some ([(.text "letter", .text "Own letter"), (.text "note", .text "Note")],
        ["'utf-8' codec can't decode byte 0xff in position 0: invalid start byte"]) := by
  have hreverse : twofold.directories.reverse = [{ names := ["base"] }, { names := ["own"] }] := rfl
  have hsettings : twofold.settings = {} := rfl
  have hown : Action.loadDirectory true .twofold {} { names := ["own"] } =
      Action.loadEach (Action.loadIn true .twofold {}) [{ names := ["own", "a.json"] }] := by
    rw [Action.loadDirectory_listed rfl rfl, Definition.paths_own]
  have hbase : Action.loadDirectory true .twofold {} { names := ["base"] } =
      Action.loadEach (Action.loadIn true .twofold {}) [{ names := ["base", "a.json"] },
        { names := ["base", "b.json"] }, { names := ["base", "c.json"] }] := by
    rw [Action.loadDirectory_listed rfl rfl, Definition.paths_base]
  simp only [Action.loadAll, hreverse, hsettings, Action.loadDirectories, hown, hbase]
  decide +kernel

end Catalog

/-- A name that is too long for any file cannot be looked up. -/
theorem FileTree.hasDirectory_of_long {t : FileTree} {name : String}
    (hl : nameLimit < name.utf8ByteSize) (hp : name.utf8ByteSize ≤ pathLimit)
    (hz : '\x00' ∉ name.toList) :
    t.hasDirectory { names := [name] } = .error (.file .nameTooLong name) := by
  have htext : FilePath.text { names := [name] } = name :=
    String.intercalate_singleton (s := "/")
  have hnull : hasNull { names := [name] } = false := by simpa [hasNull] using hz
  have hup : name ≠ ".." := by
    intro he
    subst he
    exact absurd hl (by decide)
  have hlocate : t.locate { names := [name] } = .error .nameTooLong := by
    rw [locate, htext, if_neg (Nat.not_lt.2 hp)]
    simp only [Bool.false_eq_true, if_false, follow, find?, List.isEmpty_nil, if_true, hup, hl]
    rfl
  rw [hasDirectory, look, hnull, hlocate, htext]
  rfl

namespace Catalog

theorem not_sought_of_long {t : FileTree} {name : String}
    (hl : FileTree.nameLimit < name.utf8ByteSize) (hp : name.utf8ByteSize ≤ FileTree.pathLimit)
    (hz : '\x00' ∉ name.toList) (ht : name.toList.head? ≠ some '~') :
    ¬ ∃ ps, sought t { names := [name] } = .ok ps := by
  intro hsought
  obtain ⟨ps, hps⟩ := hsought
  obtain ⟨d, b, hd, hb, -⟩ := sought_eq_ok.1 hps
  simp only [FilePath.expand, if_neg ht] at hd
  cases hd
  rw [FileTree.hasDirectory_of_long hl hp hz] at hb
  cases hb

def overlong : Catalog where
  directories := [{ names := [.ofList (List.replicate 256 'a')] }]

end Catalog

end Promptbook

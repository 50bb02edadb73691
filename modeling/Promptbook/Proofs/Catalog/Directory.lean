import Promptbook.Catalog.Basic
import Promptbook.Proofs.Catalog.Anywhere
import Promptbook.Proofs.Catalog.File
import Promptbook.Proofs.Registry.Changes
import Promptbook.Proofs.Report.Answers

namespace Promptbook

structure Trial where
  path : FilePath
  result : Except String Prompt

namespace Trial

def prompts (xs : List Trial) : List Prompt :=
  xs.filterMap fun x => x.result.toOption

def errors (xs : List Trial) : List String :=
  xs.filterMap fun x =>
    match x.result with
    | .ok _ => none
    | .error message => some message

def loaded (xs : List Trial) : Loaded where
  prompts := prompts xs
  errors := errors xs

/-- The text of the error for a file. Without reports, a failure that has no text is told by the
file and the class of the failure. -/
def wording (reporting : Bool) (p : FilePath) (e : Failure) (shown : String) : String :=
  if !reporting && shown.isEmpty then s!"{p.text}: {e.className}" else shown

theorem loaded_cons (p : FilePath) (r : Except String Prompt) (xs : List Trial) :
    loaded (⟨p, r⟩ :: xs) = (loaded xs).add r := by
  cases r <;> rfl

end Trial

/-- A delivery on a file that could not be loaded. -/
structure Delivery.OnFile (h : Heap) (d : Delivery) : Prop where
  kind : d.kind = .templateParse
  message : ∃ text, d.message = .text text
  context : ∃ r id source error, d.context = .ref r ∧ h.get? r = some (.dict
    [(.text "prompt_id", .text id), (.text "source", .text source),
      (.text "original_error", .text error)])

namespace Session

structure Grows (s s' : Session) : Prop where
  registry : s'.registry = s.registry
  heap : s.heap.Extends s'.heap
  respond : s'.respond = s.respond

variable {s s' u : Session} {e : Failure}

theorem Grows.refl (s : Session) : s.Grows s :=
  ⟨rfl, .refl s.heap, rfl⟩

theorem Grows.trans (hu : s.Grows u) (hs : u.Grows s') : s.Grows s' :=
  ⟨hs.registry.trans hu.registry, hu.heap.trans hs.heap, hs.respond.trans hu.respond⟩

/-- A report on a file that could not be loaded is ended by a failure, in a session with the same
subscribers to which containers were added. -/
def CutShort (s : Session) (e : Failure) : Prop :=
  ∃ u v message record, u.respond = s.respond ∧ s.heap.Extends u.heap ∧
    (∀ name, Delivery.OnFile u.heap ⟨name, .templateParse, message, record⟩) ∧
    (Action.reportLending (Value.among [record]) (.kind .templateParse) message record).run.run u =
      (.error e, v)

theorem CutShort.earlier (he : u.CutShort e) (hr : u.respond = s.respond)
    (hk : s.heap.Extends u.heap) : s.CutShort e := by
  obtain ⟨v, w, message, record, hv, hvk, hfile, hrun⟩ := he
  exact ⟨v, w, message, record, hv.trans hr, hk.trans hvk, hfile, hrun⟩

theorem registry_later (s : Session) (h : History) : (s.later h).registry = s.registry := by
  induction h generalizing s with
  | nil => rfl
  | change c rest ih => exact ih _
  | store g rest ih => exact ih _
  | report n told rest iht ih => rw [later, ih, iht]; rfl
  | answer a done rest ihd ih => rw [later, ih, jot, ihd]; rfl

end Session

namespace Prompt

/-- Prompts with ids that are texts, each with a serial number of its own: they count up, from one
number on and below another. -/
structure Fresh (lo hi : Nat) (qs : List Prompt) : Prop where
  worded : ∀ q ∈ qs, q.id.Worded
  least : ∀ q ∈ qs, lo ≤ q.serial
  below : ∀ q ∈ qs, q.serial < hi
  increasing : qs.Pairwise (·.serial < ·.serial)

variable {lo mid hi : Nat} {p q : Prompt} {ps qs : List Prompt}

theorem fresh_nil (lo hi : Nat) : Fresh lo hi [] :=
  ⟨List.forall_mem_nil _, List.forall_mem_nil _, List.forall_mem_nil _, .nil⟩

theorem fresh_single (hw : q.id.Worded) (hlo : lo ≤ q.serial) (hhi : q.serial < hi) :
    Fresh lo hi [q] :=
  ⟨List.forall_mem_singleton.2 hw, List.forall_mem_singleton.2 hlo,
    List.forall_mem_singleton.2 hhi, List.pairwise_singleton _ _⟩

theorem Fresh.append (hp : Fresh lo mid ps) (hq : Fresh mid hi qs) (hl : lo ≤ mid) (hm : mid ≤ hi) :
    Fresh lo hi (ps ++ qs) where
  worded := List.forall_mem_append.2 ⟨hp.worded, hq.worded⟩
  least := List.forall_mem_append.2 ⟨hp.least, fun q h => hl.trans (hq.least q h)⟩
  below := List.forall_mem_append.2 ⟨fun p h => (hp.below p h).trans_le hm, hq.below⟩
  increasing := List.pairwise_append.2 ⟨hp.increasing, hq.increasing, fun p h q h' =>
    (hp.below p h).trans_le (hq.least q h')⟩

theorem Fresh.left (hf : Fresh lo hi (ps ++ qs)) : Fresh lo hi ps where
  worded p hp := hf.worded p (List.mem_append_left _ hp)
  least p hp := hf.least p (List.mem_append_left _ hp)
  below p hp := hf.below p (List.mem_append_left _ hp)
  increasing := (List.pairwise_append.1 hf.increasing).1

theorem Fresh.mono {lo' : Nat} (hq : Fresh lo hi qs) (hl : lo' ≤ lo) : Fresh lo' hi qs where
  worded := hq.worded
  least q h := hl.trans (hq.least q h)
  below := hq.below
  increasing := hq.increasing

theorem Fresh.grow {hi' : Nat} (hq : Fresh lo hi qs) (hh : hi ≤ hi') : Fresh lo hi' qs where
  worded := hq.worded
  least := hq.least
  below q h := (hq.below q h).trans_le hh
  increasing := hq.increasing

theorem Fresh.family (hq : Fresh lo hi qs) : Registry.Family (· ∈ qs) where
  worded := hq.worded
  serial p q hp hq' he := by
    have hnodup : (qs.map Prompt.serial).Nodup :=
      List.pairwise_map.2 (hq.increasing.imp fun hlt => hlt.ne)
    exact List.inj_on_of_nodup_map hnodup hp hq' he

end Prompt

namespace Catalog

variable {t : FileTree} {directory : FilePath} {ps : List FilePath}

/-- The paths of the definitions that are loaded from a directory. -/
def sought (t : FileTree) (directory : FilePath) : Except Fault (List FilePath) := do
  pathsIn t (← directory.expand t.home)

theorem sought_eq_ok : sought t directory = .ok ps ↔
    ∃ d b, directory.expand t.home = .ok d ∧ t.hasDirectory d = .ok b ∧
      (if b then Definition.paths t d else []) = ps := by
  simp only [sought, pathsIn, bind_eq_ok, pure_eq_ok]
  constructor
  · intro h
    obtain ⟨d, hd, b, hb, hps⟩ := h
    exact ⟨d, b, hd, hb, hps⟩
  · intro h
    obtain ⟨d, b, hd, hb, hps⟩ := h
    exact ⟨d, hd, b, hb, hps⟩

end Catalog

namespace Action

open Session (Grows)

variable {t : FileTree} {settings : ReviewSettings} {p : FilePath} {s s' u : Session} {q : Prompt}
  {r : Except String Prompt} {o : Except Failure Prompt} {e : Failure}

theorem loadFile_grows (hrun : (loadFile t settings p).run.run s = (o, s')) : s.Grows s' := by
  obtain ⟨hheap, lines, hs'⟩ := loadFile_leaves hrun
  exact ⟨by rw [hs'], hheap, by rw [hs']⟩

theorem loadFile_fresh (hrun : (loadFile t settings p).run.run s = (.ok q, s')) :
    Prompt.Fresh s.heap.nodes.size s'.heap.nodes.size [q] := by
  obtain ⟨v, k, w, hr, hw, he, hq⟩ := loadFile_eq_ok hrun
  obtain ⟨m, hm, ha⟩ := Review.record_accepts hw he
  obtain ⟨m', hm', hmade⟩ := Prompt.madeOf_of_ofValue hq
  cases hm.symm.trans hm'
  have hs := hmade.serial
  exact Prompt.fresh_single (hmade.worded ha)
    (hs ▸ (Definition.read_eq_ok hr).1.keeps.size_le) (hs ▸ hmade.extends.2)

/-- The result says what loading the file came to: it is the prompt in a session that has the
containers of a heap, with others perhaps, or the text of the failure, which is the same in every
session. -/
def Gave (t : FileTree) (settings : ReviewSettings) (reporting : Bool) (h : Heap) (p : FilePath) :
    Except String Prompt → Prop
  | .ok q => ∃ u, h.Extends u.heap ∧ ((loadFile t settings p).run.run u).1 = .ok q
  | .error message => ∃ e shown, (∀ v, ((loadFile t settings p).run.run v).1 = .error e) ∧
      (∀ k, e.text k = .ok shown) ∧ message = Trial.wording reporting p e shown

structure Loads (t : FileTree) (settings : ReviewSettings) (reporting : Bool) (s : Session)
    (p : FilePath) (r : Except String Prompt) (s' : Session) : Prop where
  gave : Gave t settings reporting s.heap p r
  grows : s.Grows s'
  fresh : ∀ q, r = .ok q → Prompt.Fresh s.heap.nodes.size s'.heap.nodes.size [q]

theorem Gave.earlier {reporting : Bool} {h k : Heap} (hg : Gave t settings reporting k p r)
    (hk : h.Extends k) : Gave t settings reporting h p r := by
  cases r with
  | ok q =>
    obtain ⟨u, hu, hrun⟩ := hg
    exact ⟨u, hk.trans hu, hrun⟩
  | error message => exact hg

theorem text_loadFile_error (hrun : (loadFile t settings p).run.run s = (.error e, s')) :
    e.isInterrupt = false ∧ ∃ shown, ∀ h, e.text h = .ok shown := by
  obtain ⟨cause, rfl⟩ | ⟨reason, rfl⟩ := loadFile_error (congrArg Prod.fst hrun)
  · exact ⟨rfl, _, fun _ => rfl⟩
  · exact ⟨rfl, _, fun _ => rfl⟩

theorem run_loadLogged_ok (hrun : (loadFile t settings p).run.run s = (.ok q, u)) :
    (loadLogged t settings p).run.run s = (.ok (.ok q), u) :=
  run_rescue_ok ((run_bind_ok hrun).trans rfl)

theorem run_loadLogged_error {shown : String}
    (hrun : (loadFile t settings p).run.run s = (.error e, u)) (hi : e.isInterrupt = false)
    (hshown : ∀ h, e.text h = .ok shown) : (loadLogged t settings p).run.run s =
      (.ok (.error (Trial.wording false p e shown)),
        u.jot [⟨.warning, s!"Skipping prompt definition {p.text}: {shown}"⟩]) := by
  rw [loadLogged, run_rescue_error (run_bind_error hrun), hi]
  simp only [Bool.false_eq_true, if_false]
  rw [run_bind_ok (run_read_eq_ok.2 ⟨hshown _, rfl⟩)]
  rfl

theorem loadLogged_loads (t : FileTree) (settings : ReviewSettings) (p : FilePath) (s : Session) :
    ∃ r s', (loadLogged t settings p).run.run s = (.ok r, s') ∧
      Loads t settings false s p r s' := by
  rcases hrun : (loadFile t settings p).run.run s with ⟨e | q, u⟩
  · obtain ⟨hi, shown, hshown⟩ := text_loadFile_error hrun
    have hgrows := loadFile_grows hrun
    refine ⟨_, _, run_loadLogged_error hrun hi hshown, ?_⟩
    exact ⟨⟨e, shown, loadFile_error_anywhere (congrArg Prod.fst hrun), hshown, rfl⟩,
      ⟨hgrows.registry, hgrows.heap, hgrows.respond⟩, fun q he => by cases he⟩
  · refine ⟨_, _, run_loadLogged_ok hrun, ⟨s, .refl s.heap, congrArg Prod.fst hrun⟩,
      loadFile_grows hrun, fun q' he => ?_⟩
    cases he
    exact loadFile_fresh hrun

theorem mergedContext_new {context merged : Value} {h k : Heap}
    (hm : mergedContext e context h = .ok (merged, k)) :
    h.Extends k ∧ ∀ r, Value.among [merged] r = true → h.get? r = none := by
  obtain ⟨es, -, hm⟩ := bind_eq_ok.1 hm
  obtain ⟨shown, -, hm⟩ := bind_eq_ok.1 hm
  cases hm
  refine ⟨.alloc h _, fun r hr => ?_⟩
  rw [Value.among, List.contains_iff_mem, List.mem_singleton] at hr
  rw [Value.ref.inj hr]
  exact Heap.get?_alloc_fst h _

theorem reportLending_leaves {lent : Ref → Bool} {kind message context : Value}
    {o : Except Failure Unit}
    (hrun : (reportLending lent kind message context).run.run s = (o, s')) :
    s'.registry = s.registry ∧ s'.respond = s.respond := by
  rw [Account.of_reportLending lent kind message context s] at hrun
  cases hrun
  exact ⟨s.registry_later _, s.respond_later _⟩

theorem recordFailure_grows {kind context : Value} {g : Guarded Prompt}
    (hrun : (recordFailure kind context e).run.run s = (.ok g, s')) :
    s.Grows s' ∧ g.value = none ∧ g.error = some e := by
  obtain ⟨merged, u, hmerge, hrun⟩ := run_bind_eq_ok.1 hrun
  obtain ⟨h, hmerged, rfl⟩ := run_edit_eq_ok.1 hmerge
  rw [run_bind_ok (run_get _)] at hrun
  obtain ⟨_, v, hreport, hrun⟩ := run_bind_eq_ok.1 hrun
  obtain ⟨he, hnew⟩ := mergedContext_new hmerged
  have hreworks := reportLending_reworks (Value.among [merged]) kind
    (.text (Strategy.ofContext h kind.toKind merged).message) merged { s with heap := h }
  obtain ⟨hregistry, hrespond⟩ := reportLending_leaves hreport
  cases hrun
  rw [hreport] at hreworks
  exact ⟨⟨hregistry, hreworks.keeps he hnew, hrespond⟩, rfl, rfl⟩

theorem mergedContext_file {h : Heap} {r : Ref} {id source shown : String}
    (hshown : e.text h = .ok shown)
    (hr : h.get? r = some (.dict [(.text "prompt_id", .text id), (.text "source", .text source)])) :
    ∃ error r' k, mergedContext e (.ref r) h = .ok (.ref r', k) ∧ h.Extends k ∧
      k.get? r' = some (.dict [(.text "prompt_id", .text id), (.text "source", .text source),
        (.text "original_error", .text error)]) := by
  have hm : h.mapping? (.ref r) =
      some (.entries [(.text "prompt_id", .text id), (.text "source", .text source)]) := by
    simp only [Heap.mapping?, Heap.node?_ref, hr]
  refine ⟨if shown.isEmpty then e.className else shown, _, _, ?_, .alloc h _, Heap.get?_alloc h _⟩
  simp only [mergedContext, contextEntries, hm, Mapping.items, Failure.textOrClass, hshown]
  rfl

theorem recordFailure_cutShort {r : Ref} {id source shown : String} {e' : Failure}
    (hshown : e.text s.heap = .ok shown)
    (hr : s.heap.get? r =
      some (.dict [(.text "prompt_id", .text id), (.text "source", .text source)]))
    (hrun : (recordFailure (.kind .templateParse) (.ref r) e : Action (Guarded Prompt)).run.run s =
      (.error e', s')) : s.CutShort e' := by
  obtain ⟨error, r', k, hmerged, hk, hget⟩ := mergedContext_file hshown hr
  rw [recordFailure, run_bind_ok (run_edit_eq_ok.2 ⟨k, hmerged, rfl⟩), run_bind_ok (run_get _)]
    at hrun
  obtain hreport | ⟨_, v, -, hreturn⟩ := run_bind_eq_error hrun
  · exact ⟨{ s with heap := k }, s', _, .ref r', rfl, hk,
      fun name => ⟨rfl, ⟨_, rfl⟩, r', id, source, error, rfl, hget⟩, hreport⟩
  · cases hreturn

def fileContext (p : FilePath) (h : Heap) : Value × Heap :=
  h.record [("prompt_id", .text p.stem), ("source", .text p.text)]

theorem run_fileContext (p : FilePath) (s : Session) :
    (make fun h => h.record [("prompt_id", .text p.stem), ("source", .text p.text)] :
      Action Value).run.run s =
      (.ok (fileContext p s.heap).1, { s with heap := (fileContext p s.heap).2 }) :=
  run_make

theorem run_loadReported_ok (hrun : (loadFile t settings p).run.run
      { s with heap := (fileContext p s.heap).2 } = (.ok q, u)) :
    (loadReported t settings p).run.run s = (.ok (.ok q), u) := by
  rw [loadReported, run_bind_ok (run_fileContext p s), run_bind_ok (run_attempt_ok _ _ hrun)]
  rfl

theorem run_loadReported_error {shown : String} (hrun : (loadFile t settings p).run.run
      { s with heap := (fileContext p s.heap).2 } = (.error e, u)) (hi : e.isInterrupt = false)
    (hshown : ∀ h, e.text h = .ok shown) : (loadReported t settings p).run.run s =
      (recordFailure (.kind .templateParse) (fileContext p s.heap).1 e >>= fun _ : Guarded Prompt =>
        (return .error shown : Action (Except String Prompt))).run.run u := by
  have hattempt := run_attempt_error (.kind .templateParse) (fileContext p s.heap).1 hrun hi
  rw [loadReported, run_bind_ok (run_fileContext p s)]
  rcases hrecord : (recordFailure (.kind .templateParse) (fileContext p s.heap).1 e :
      Action (Guarded Prompt)).run.run u with ⟨e' | g, v⟩
  · rw [run_bind_error (hattempt.trans hrecord), run_bind_error hrecord]
  · obtain ⟨-, hvalue, herror⟩ := recordFailure_grows hrecord
    rw [run_bind_ok (hattempt.trans hrecord), run_bind_ok hrecord]
    simp only [hvalue, herror]
    rw [run_bind_ok (run_read_eq_ok.2 ⟨hshown _, rfl⟩)]

theorem loadReported_loads (hrun : (loadReported t settings p).run.run s = (.ok r, s')) :
    Loads t settings true s p r s' := by
  have hk : s.heap.Extends (fileContext p s.heap).2 := .alloc s.heap _
  rcases hload : (loadFile t settings p).run.run { s with heap := (fileContext p s.heap).2 } with
    ⟨e | q, u⟩
  · obtain ⟨hi, shown, hshown⟩ := text_loadFile_error hload
    rw [run_loadReported_error hload hi hshown] at hrun
    obtain ⟨g, v, hrecord, hrun⟩ := run_bind_eq_ok.1 hrun
    have hu := loadFile_grows hload
    have hv := (recordFailure_grows hrecord).1
    cases hrun
    exact ⟨⟨e, shown, loadFile_error_anywhere (congrArg Prod.fst hload), hshown, rfl⟩,
      ⟨hv.registry.trans hu.registry, hk.trans (hu.heap.trans hv.heap),
        hv.respond.trans hu.respond⟩, fun q he => by cases he⟩
  · cases (run_loadReported_ok hload).symm.trans hrun
    have hu := loadFile_grows hload
    refine ⟨⟨_, hk, congrArg Prod.fst hload⟩, ⟨hu.registry, hk.trans hu.heap, hu.respond⟩,
      fun q' he => ?_⟩
    cases he
    exact (loadFile_fresh hload).mono hk.size_le

theorem loadReported_cutShort (hrun : (loadReported t settings p).run.run s = (.error e, s')) :
    s.CutShort e := by
  have hk : s.heap.Extends (fileContext p s.heap).2 := .alloc s.heap _
  rcases hload : (loadFile t settings p).run.run { s with heap := (fileContext p s.heap).2 } with
    ⟨e' | q, u⟩
  · obtain ⟨hi, shown, hshown⟩ := text_loadFile_error hload
    have hu := loadFile_grows hload
    rw [run_loadReported_error hload hi hshown] at hrun
    obtain hrecord | ⟨_, v, -, hreturn⟩ := run_bind_eq_error hrun
    · have hcontext := hu.heap.keeps (Heap.get?_alloc s.heap _)
      exact (recordFailure_cutShort (hshown u.heap) hcontext hrecord).earlier hu.respond
        (hk.trans hu.heap)
    · cases hreturn
  · cases (run_loadReported_ok hload).symm.trans hrun

def loadIn (reporting : Bool) (t : FileTree) (settings : ReviewSettings) :
    FilePath → Action (Except String Prompt) :=
  if reporting then loadReported t settings else loadLogged t settings

section Directory

variable {load : FilePath → Action (Except String Prompt)} {reporting : Bool} {ps : List FilePath}
  {xs : List Trial} {loaded : Loaded} {directory : FilePath}

structure Batch (t : FileTree) (settings : ReviewSettings) (reporting : Bool) (s : Session)
    (ps : List FilePath) (xs : List Trial) (s' : Session) : Prop where
  paths : xs.map Trial.path = ps
  gave : ∀ x ∈ xs, Gave t settings reporting s.heap x.path x.result
  grows : s.Grows s'
  fresh : Prompt.Fresh s.heap.nodes.size s'.heap.nodes.size (Trial.prompts xs)

theorem batch_nil (t : FileTree) (settings : ReviewSettings) (reporting : Bool) (s : Session) :
    Batch t settings reporting s [] [] s :=
  ⟨rfl, List.forall_mem_nil _, .refl s, Prompt.fresh_nil _ _⟩

theorem Loads.cons (hl : Loads t settings reporting s p r u)
    (hb : Batch t settings reporting u ps xs s') :
    Batch t settings reporting s (p :: ps) (⟨p, r⟩ :: xs) s' where
  paths := congrArg (p :: ·) hb.paths
  gave := List.forall_mem_cons.2 ⟨hl.gave, fun x hx => (hb.gave x hx).earlier hl.grows.heap⟩
  grows := hl.grows.trans hb.grows
  fresh := by
    cases r with
    | error message => exact hb.fresh.mono hl.grows.heap.size_le
    | ok q =>
      exact (hl.fresh q rfl).append hb.fresh hl.grows.heap.size_le hb.grows.heap.size_le

theorem loadIn_loads (reporting : Bool) (hrun : (loadIn reporting t settings p).run.run s =
    (.ok r, s')) : Loads t settings reporting s p r s' := by
  cases reporting with
  | true => exact loadReported_loads hrun
  | false =>
    obtain ⟨r', u, hr, hloads⟩ := loadLogged_loads t settings p s
    cases hr.symm.trans hrun
    exact hloads

theorem loadIn_cutShort (hrun : (loadIn reporting t settings p).run.run s = (.error e, s')) :
    reporting = true ∧ s.CutShort e := by
  cases reporting with
  | true => exact ⟨rfl, loadReported_cutShort hrun⟩
  | false =>
    obtain ⟨r, u, hr, -⟩ := loadLogged_loads t settings p s
    cases hr.symm.trans hrun

theorem loadEach_batch
    (hrun : (loadEach (loadIn reporting t settings) ps).run.run s = (.ok loaded, s')) :
    ∃ xs, Batch t settings reporting s ps xs s' ∧ loaded = Trial.loaded xs := by
  induction ps generalizing s s' loaded with
  | nil =>
    cases hrun
    exact ⟨[], batch_nil t settings _ _, rfl⟩
  | cons p ps ih =>
    obtain ⟨r, u, hr, hrun⟩ := run_bind_eq_ok.1 hrun
    obtain ⟨rest, v, hrest, hrun⟩ := run_bind_eq_ok.1 hrun
    obtain ⟨xs, hb, rfl⟩ := ih hrest
    cases hrun
    exact ⟨⟨p, r⟩ :: xs, (loadIn_loads reporting hr).cons hb, (Trial.loaded_cons p r xs).symm⟩

theorem loadEach_cutShort
    (hrun : (loadEach (loadIn reporting t settings) ps).run.run s = (.error e, s')) :
    reporting = true ∧ s.CutShort e := by
  induction ps generalizing s with
  | nil => cases hrun
  | cons p ps ih =>
    obtain hp | ⟨r, u, hp, hafter⟩ := run_bind_eq_error hrun
    · exact loadIn_cutShort hp
    · have hu := (loadIn_loads reporting hp).grows
      obtain hrest | ⟨_, v, -, hreturn⟩ := run_bind_eq_error hafter
      · exact (ih hrest).imp_right fun he => he.earlier hu.respond hu.heap
      · cases hreturn

theorem loadDirectory_listed {d : FilePath} (hd : directory.expand t.home = .ok d)
    (hb : t.hasDirectory d = .ok true) : loadDirectory reporting t settings directory =
      loadEach (loadIn reporting t settings) (Definition.paths t d) := by
  funext s
  exact (run_bind_ok (run_read_eq_ok.2 ⟨hd, rfl⟩)).trans
    ((run_bind_ok (run_read_eq_ok.2 ⟨hb, rfl⟩)).trans rfl)

/-- The prompts and the errors of a directory are those of its files. -/
theorem loadDirectory_batch
    (hrun : (loadDirectory reporting t settings directory).run.run s = (.ok loaded, s')) :
    ∃ ps xs, Catalog.sought t directory = .ok ps ∧ Batch t settings reporting s ps xs s' ∧
      loaded = Trial.loaded xs := by
  obtain ⟨d, u, hread, hafter⟩ := run_bind_eq_ok.1 hrun
  obtain ⟨hd, rfl⟩ := run_read_eq_ok.1 hread
  obtain ⟨b, v, hread', hload⟩ := run_bind_eq_ok.1 hafter
  obtain ⟨hb, rfl⟩ := run_read_eq_ok.1 hread'
  cases b with
  | true =>
    obtain ⟨xs, hbatch, hloaded⟩ := loadEach_batch hload
    exact ⟨_, xs, Catalog.sought_eq_ok.2 ⟨d, true, hd, hb, rfl⟩, hbatch, hloaded⟩
  | false =>
    cases hload
    exact ⟨[], [], Catalog.sought_eq_ok.2 ⟨d, false, hd, hb, rfl⟩,
      ⟨rfl, List.forall_mem_nil _, ⟨rfl, .refl _, rfl⟩, Prompt.fresh_nil _ _⟩, rfl⟩

theorem loadDirectory_error {cause : Fault} (hps : Catalog.sought t directory = .error cause) :
    (loadDirectory reporting t settings directory).run.run s = (.error (.fault cause), s) := by
  cases hd : directory.expand t.home with
  | error cause' =>
    rw [Catalog.sought, hd] at hps
    cases hps
    rw [loadDirectory, run_bind_error (run_read_error hd)]
  | ok d =>
    cases hb : t.hasDirectory d with
    | error cause' =>
      rw [Catalog.sought, hd, ok_bind, Catalog.pathsIn, hb] at hps
      cases hps
      rw [loadDirectory, run_bind_ok (run_read_eq_ok.2 ⟨hd, rfl⟩),
        run_bind_error (run_read_error hb)]
    | ok b => cases (Catalog.sought_eq_ok.2 ⟨d, b, hd, hb, rfl⟩).symm.trans hps

/-- The load of a directory fails only if its path cannot be looked up, or if a report is cut short. -/
theorem loadDirectory_fails
    (hrun : (loadDirectory reporting t settings directory).run.run s = (.error e, s')) :
    (∃ cause, Catalog.sought t directory = .error cause ∧ e = .fault cause) ∨
      reporting = true ∧ s.CutShort e := by
  cases hps : Catalog.sought t directory with
  | error cause =>
    cases (loadDirectory_error hps).symm.trans hrun
    exact .inl ⟨cause, rfl, rfl⟩
  | ok ps =>
    obtain ⟨d, b, hd, hb, -⟩ := Catalog.sought_eq_ok.1 hps
    rw [loadDirectory, run_bind_ok (run_read_eq_ok.2 ⟨hd, rfl⟩),
      run_bind_ok (run_read_eq_ok.2 ⟨hb, rfl⟩)] at hrun
    cases b with
    | true => exact .inr (loadEach_cutShort hrun)
    | false => cases hrun

end Directory

end Action

end Promptbook

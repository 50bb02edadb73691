import Promptbook.Proofs.Catalog.Anywhere
import Promptbook.Proofs.Catalog.Directory
import Promptbook.Proofs.Catalog.Listing
import Promptbook.Proofs.Report.Mild

namespace Promptbook

theorem Session.Tempered.not_cutShort {s : Session} {own : Value → Ref → Bool}
    (hs : s.Tempered own Delivery.OnFile) (e : Failure) : ¬ s.CutShort e := by
  intro he
  obtain ⟨u, v, message, record, hr, hk, hfile, hrun⟩ := he
  obtain ⟨text, rfl⟩ := (hfile "").message
  obtain ⟨r, id, source, error, rfl, -⟩ := (hfile "").context
  have htold (name : String) : (u.respond ⟨name, .templateParse, .text text, .ref r⟩).Mild
      (own (.ref r)) (u.heap.TellsAlways (own (.ref r))) :=
    hs.mono hr hk u.heap _ (.refl _) (hfile name)
  obtain ⟨w, hreturn, -⟩ := Action.run_report_mild (Value.among [.ref r])
    (u.writes_text text r) (.kind .templateParse) fun name _ => htold name
  cases hreturn.symm.trans hrun

def Session.grumbling : Session where
  ledger := { subscribers := ["grumbler"] }
  respond := fun _ => .fail (.raised (.foreign .badValue) [.text "no"])

namespace Trial

variable {t : FileTree} {settings : ReviewSettings} {reporting reporting' : Bool} {h k : Heap}
  {x y : Trial} {xs ys : List Trial}

theorem errors_append (xs ys : List Trial) : errors (xs ++ ys) = errors xs ++ errors ys :=
  List.filterMap_append

/-- The result is what loading the file comes to, and comes to in every session: an equal prompt, or
the text of the same failure. -/
inductive Faithful (t : FileTree) (settings : ReviewSettings) (reporting : Bool) (h : Heap) :
    Trial → Prop
  | accepted {p : FilePath} {q : Prompt} :
      (∀ v, ∃ c w, (Action.loadFile t settings p).run.run v = (.ok c, w) ∧
        Prompt.Equal w.heap c h q) →
      Faithful t settings reporting h ⟨p, .ok q⟩
  | rejected {p : FilePath} {e : Failure} {shown : String} :
      (∀ v, ((Action.loadFile t settings p).run.run v).1 = .error e) →
      (∀ k, e.text k = .ok shown) →
      Faithful t settings reporting h ⟨p, .error (wording reporting p e shown)⟩

theorem Faithful.extends (hx : x.Faithful t settings reporting h) (hk : h.Extends k) :
    x.Faithful t settings reporting k := by
  cases hx with
  | accepted hall =>
    refine .accepted fun v => ?_
    obtain ⟨c, w, hrun, heq⟩ := hall v
    exact ⟨c, w, hrun, heq.extends hk⟩
  | rejected hall hshown => exact .rejected hall hshown

inductive Alike (t : FileTree) (settings : ReviewSettings) (reporting reporting' : Bool)
    (h k : Heap) : Trial → Trial → Prop
  | accepted {p : FilePath} {q q' : Prompt} :
      Prompt.Equal h q k q' → Alike t settings reporting reporting' h k ⟨p, .ok q⟩ ⟨p, .ok q'⟩
  | rejected {p : FilePath} {e : Failure} {shown : String} :
      (∀ v, ((Action.loadFile t settings p).run.run v).1 = .error e) →
      (∀ k, e.text k = .ok shown) →
      Alike t settings reporting reporting' h k ⟨p, .error (wording reporting p e shown)⟩
        ⟨p, .error (wording reporting' p e shown)⟩

theorem Faithful.alike (hx : x.Faithful t settings reporting h)
    (hy : y.Faithful t settings reporting' k) (hp : x.path = y.path) :
    Alike t settings reporting reporting' h k x y := by
  cases hx with
  | @accepted p q hall =>
    obtain ⟨c, w, hrun, heq⟩ := hall {}
    cases hy with
    | @accepted p' q' hall' =>
      obtain rfl : p = p' := hp
      obtain ⟨c', w', hrun', heq'⟩ := hall' {}
      cases hrun.symm.trans hrun'
      exact .accepted (heq.both heq' (Action.held_of_fileOutcome
        (Action.fileOutcome_eq_ok.2 ⟨w, hrun, rfl⟩)))
    | @rejected p' e shown hall' _ =>
      obtain rfl : p = p' := hp
      cases (congrArg Prod.fst hrun).symm.trans (hall' {})
  | @rejected p e shown hall hshown =>
    cases hy with
    | @accepted p' q' hall' =>
      obtain rfl : p = p' := hp
      obtain ⟨c', w', hrun', -⟩ := hall' {}
      cases (congrArg Prod.fst hrun').symm.trans (hall {})
    | @rejected p' e' shown' hall' hshown' =>
      obtain rfl : p = p' := hp
      cases (hall {}).symm.trans (hall' {})
      cases (hshown .empty).symm.trans (hshown' .empty)
      exact .rejected hall hshown

theorem forall₂_alike (hx : ∀ x ∈ xs, x.Faithful t settings reporting h)
    (hy : ∀ y ∈ ys, y.Faithful t settings reporting' k)
    (hp : xs.map Trial.path = ys.map Trial.path) :
    List.Forall₂ (Alike t settings reporting reporting' h k) xs ys := by
  induction xs generalizing ys with
  | nil =>
    obtain rfl : ys = [] := List.map_eq_nil_iff.1 hp.symm
    exact .nil
  | cons x xs ih =>
    cases ys with
    | nil => cases hp
    | cons y ys =>
      obtain ⟨hhead, htail⟩ := List.cons.inj hp
      rw [List.forall_mem_cons] at hx hy
      exact .cons (hx.1.alike hy.1 hhead) (ih hx.2 hy.2 htail)

/-- What the files of a directory give in two modes is the same but for the wording of failures that
have no text. -/
structure Agree (t : FileTree) (settings : ReviewSettings) (ps : List FilePath) (h : Heap)
    (x : Loaded) (k : Heap) (y : Loaded) : Prop where
  prompts : List.Forall₂ (fun p q => Prompt.Equal h p k q) x.prompts y.prompts
  number : x.errors.length = y.errors.length
  texts : (∀ p ∈ ps, ∀ v e, ((Action.loadFile t settings p).run.run v).1 = .error e →
    e.text v.heap ≠ .ok "") → x.errors = y.errors

theorem agree_loaded (hxy : List.Forall₂ (Alike t settings reporting reporting' h k) xs ys) :
    Agree t settings (xs.map Trial.path) h (loaded xs) k (loaded ys) := by
  induction hxy with
  | nil => exact ⟨.nil, rfl, fun _ => rfl⟩
  | cons hhead _ ih =>
    cases hhead with
    | accepted heq =>
      refine ⟨.cons heq ih.prompts, ih.number, fun htexts => ?_⟩
      exact ih.texts fun p hp => htexts p (List.mem_cons_of_mem _ hp)
    | @rejected p e shown hall hshown =>
      refine ⟨ih.prompts, congrArg (· + 1) ih.number, fun htexts => ?_⟩
      have hne : shown.isEmpty = false := by
        rw [← Bool.not_eq_true, String.isEmpty_iff]
        intro he
        exact htexts p List.mem_cons_self {} e (hall {}) (he ▸ hshown _)
      have hword (reporting : Bool) : wording reporting p e shown = shown := by
        simp [wording, hne]
      have hrest := ih.texts fun p hp => htexts p (List.mem_cons_of_mem _ hp)
      simp only [loaded, errors, List.filterMap_cons, hword] at hrest ⊢
      rw [hrest]

end Trial

namespace Action

variable {t : FileTree} {settings : ReviewSettings} {p : FilePath} {s s' u : Session}
  {e : Failure} {r : Ref} {h : Heap} {shown : String}

section Report

variable {id source : String} {own : Value → Ref → Bool}

variable (hown : ∀ context q, own context q = true → Value.among [context] q = true)
include hown

theorem run_recordFailure_file (hs : s.Tempered own Delivery.OnFile)
    (hshown : e.text s.heap = .ok shown)
    (hr : s.heap.get? r =
      some (.dict [(.text "prompt_id", .text id), (.text "source", .text source)])) :
    ∃ strategy u,
      (recordFailure (.kind .templateParse) (.ref r) e : Action (Guarded Prompt)).run.run s =
        (.ok (.failure e strategy), u) ∧
      s.heap.Extends u.heap ∧ u.respond = s.respond ∧
        u.ledger = s.ledger.record .templateParse := by
  obtain ⟨error, r', k, hmerged, hk, hget⟩ := mergedContext_file hshown hr
  have hnew := (mergedContext_new hmerged).2
  let v := { s with heap := k }
  let strategy := Strategy.ofContext k .templateParse (.ref r')
  have htempered : v.Tempered own Delivery.OnFile := hs.mono rfl hk
  have hfile (name : String) : Delivery.OnFile v.heap
      ⟨name, .templateParse, .text strategy.message, .ref r'⟩ :=
    ⟨rfl, ⟨_, rfl⟩, r', id, source, error, rfl, hget⟩
  have hsubscriber (name : String) : (v.respond
      ⟨name, .templateParse, .text strategy.message, .ref r'⟩).Mild (own (.ref r'))
        (v.heap.TellsAlways (own (.ref r'))) :=
    htempered v.heap _ (.refl _) (hfile name)
  obtain ⟨u, hreport, hu, -⟩ :=
    run_report_mild (Value.among [.ref r']) (v.writes_text strategy.message r')
      (.kind .templateParse) fun name _ => hsubscriber name
  refine ⟨strategy, u, ?_, ?_, hu.respond, hu.ledger⟩
  · rw [recordFailure, run_bind_ok (run_edit_eq_ok.2 ⟨k, hmerged, rfl⟩), run_bind_ok (run_get v)]
    exact (run_bind_ok hreport).trans rfl
  · exact hu.heap.keeps hk fun q hq => hnew q (hown (.ref r') q hq)

end Report

/-- What loading files one after the other in one of the modes comes to. -/
structure Tried (t : FileTree) (settings : ReviewSettings) (reporting : Bool) (s : Session)
    (ps : List FilePath) (xs : List Trial) (s' : Session) : Prop where
  paths : xs.map Trial.path = ps
  faithful : ∀ x ∈ xs, x.Faithful t settings reporting s'.heap
  keeps : s.heap.Extends s'.heap
  respond : s'.respond = s.respond
  counts : ∀ k, s'.ledger.counts k = s.ledger.counts k +
    if reporting ∧ k = .templateParse then (Trial.errors xs).length else 0

variable {reporting : Bool} {ps qs : List FilePath} {xs ys : List Trial}
  {directory : FilePath} {own : Value → Ref → Bool}

theorem tried_nil (t : FileTree) (settings : ReviewSettings) (reporting : Bool) (s : Session) :
    Tried t settings reporting s [] [] s where
  paths := rfl
  faithful := List.forall_mem_nil _
  keeps := .refl s.heap
  respond := rfl
  counts k := by simp [Trial.errors]

theorem Tried.append (hx : Tried t settings reporting s ps xs u)
    (hy : Tried t settings reporting u qs ys s') :
    Tried t settings reporting s (ps ++ qs) (xs ++ ys) s' where
  paths := by rw [List.map_append, hx.paths, hy.paths]
  faithful := List.forall_mem_append.2
    ⟨fun x hmem => (hx.faithful x hmem).extends hy.keeps, hy.faithful⟩
  keeps := hx.keeps.trans hy.keeps
  respond := hy.respond.trans hx.respond
  counts k := by
    rw [hy.counts k, hx.counts k, Trial.errors_append, List.length_append]
    split
    · omega
    · rfl

theorem loadLogged_tried (t : FileTree) (settings : ReviewSettings) (p : FilePath) (s : Session) :
    ∃ r s', (loadLogged t settings p).run.run s = (.ok r, s') ∧
      Tried t settings false s [p] [⟨p, r⟩] s' := by
  rcases hrun : (loadFile t settings p).run.run s with ⟨e | q, u⟩
  · obtain ⟨hi, shown, hshown⟩ := text_loadFile_error hrun
    obtain ⟨hheap, lines, hu⟩ := loadFile_leaves hrun
    have hall := loadFile_error_anywhere (congrArg Prod.fst hrun)
    refine ⟨.error (Trial.wording false p e shown), _, run_loadLogged_error hrun hi hshown, rfl,
      List.forall_mem_singleton.2 (.rejected hall hshown), hheap, ?_, fun k => ?_⟩
    · rw [hu]
      rfl
    · rw [hu]
      simp [Session.jot]
  · obtain ⟨hheap, lines, hu⟩ := loadFile_leaves hrun
    refine ⟨.ok q, u, run_loadLogged_ok hrun, rfl,
      List.forall_mem_singleton.2 (.accepted (loadFile_ok_anywhere hrun)), hheap, ?_, fun k => ?_⟩
    · rw [hu]
    · rw [hu]
      simp

section Tried

variable (hown : ∀ context q, own context q = true → Value.among [context] q = true)
include hown

/-- With reports every file is tried, if subscribers change at most the record of its failure. -/
theorem loadReported_tried (hs : s.Tempered own Delivery.OnFile) (t : FileTree)
    (settings : ReviewSettings) (p : FilePath) :
    ∃ r s', (loadReported t settings p).run.run s = (.ok r, s') ∧
      Tried t settings true s [p] [⟨p, r⟩] s' := by
  have hk : s.heap.Extends (fileContext p s.heap).2 := .alloc s.heap _
  rcases hrun : (loadFile t settings p).run.run { s with heap := (fileContext p s.heap).2 } with
    ⟨e | q, u⟩
  · obtain ⟨hi, shown, hshown⟩ := text_loadFile_error hrun
    obtain ⟨hheap, lines, hu⟩ := loadFile_leaves hrun
    have hall := loadFile_error_anywhere (congrArg Prod.fst hrun)
    have hrespond : u.respond = s.respond := by rw [hu]
    have hledger : u.ledger = s.ledger := by rw [hu]
    obtain ⟨strategy, v, hrecord, hv, hvrespond, hvledger⟩ :=
      run_recordFailure_file hown (hs.mono hrespond (hk.trans hheap)) (hshown u.heap)
        (hheap.keeps (Heap.get?_alloc s.heap _))
    refine ⟨.error (Trial.wording true p e shown), v, ?_, rfl,
      List.forall_mem_singleton.2 (.rejected hall hshown), hk.trans (hheap.trans hv),
      hvrespond.trans hrespond, fun k => ?_⟩
    · rw [run_loadReported_error hrun hi hshown]
      exact (run_bind_ok hrecord).trans rfl
    · rw [hvledger, hledger]
      by_cases hkind : k = .templateParse
      · subst hkind
        simp [Trial.errors]
      · simp [hkind]
  · obtain ⟨hheap, lines, hu⟩ := loadFile_leaves hrun
    refine ⟨.ok q, u, run_loadReported_ok hrun, rfl,
      List.forall_mem_singleton.2 (.accepted (loadFile_ok_anywhere hrun)), hk.trans hheap, ?_,
      fun k => ?_⟩
    · rw [hu]
    · rw [hu]
      simp [Trial.errors]

theorem loadIn_tried (hs : reporting = true → s.Tempered own Delivery.OnFile) (t : FileTree)
    (settings : ReviewSettings) (p : FilePath) :
    ∃ r s', (loadIn reporting t settings p).run.run s = (.ok r, s') ∧
      Tried t settings reporting s [p] [⟨p, r⟩] s' := by
  cases reporting with
  | true => exact loadReported_tried hown (hs rfl) t settings p
  | false => exact loadLogged_tried t settings p s

theorem loadEach_tried (hs : reporting = true → s.Tempered own Delivery.OnFile) (t : FileTree)
    (settings : ReviewSettings) (ps : List FilePath) :
    ∃ xs s', (loadEach (loadIn reporting t settings) ps).run.run s = (.ok (Trial.loaded xs), s') ∧
      Tried t settings reporting s ps xs s' := by
  induction ps generalizing s with
  | nil => exact ⟨[], s, rfl, tried_nil t settings reporting s⟩
  | cons p ps ih =>
    obtain ⟨r, u, hr, hx⟩ := loadIn_tried hown hs t settings p
    obtain ⟨xs, s', hrest, hxs⟩ := ih fun hreporting => (hs hreporting).mono hx.respond hx.keeps
    refine ⟨⟨p, r⟩ :: xs, s', ?_, hx.append hxs⟩
    rw [loadEach, run_bind_ok hr, run_bind_ok hrest, Trial.loaded_cons]
    rfl

theorem loadDirectory_tried (hs : reporting = true → s.Tempered own Delivery.OnFile)
    (settings : ReviewSettings) (hps : Catalog.sought t directory = .ok ps) :
    ∃ xs s', (loadDirectory reporting t settings directory).run.run s =
        (.ok (Trial.loaded xs), s') ∧ Tried t settings reporting s ps xs s' := by
  obtain ⟨d, b, hd, hb, rfl⟩ := Catalog.sought_eq_ok.1 hps
  rw [loadDirectory, run_bind_ok (run_read_eq_ok.2 ⟨hd, rfl⟩),
    run_bind_ok (run_read_eq_ok.2 ⟨hb, rfl⟩)]
  cases b with
  | true => exact loadEach_tried hown hs t settings (Definition.paths t d)
  | false => exact ⟨[], _, rfl, rfl, List.forall_mem_nil _, .refl _, rfl,
      (tried_nil t settings reporting s).counts⟩

end Tried

/-- A directory is loaded alike with reports and without. Unless its path cannot be looked up, every
definition file in it gives its prompt or the text of an error, in the order of the paths; and with
reports the errors are counted as failures to parse, and nothing else is, whatever subscribers make
of the records of the failures. -/
theorem loadDirectory_modes (t : FileTree) (settings : ReviewSettings) (directory : FilePath)
    (s u : Session) (own : Value → Ref → Bool)
    (hown : ∀ context q, own context q = true → Value.among [context] q = true)
    (hu : u.Tempered own Delivery.OnFile) :
    (∃ cause, Catalog.sought t directory = .error cause ∧
      (loadDirectory false t settings directory).run.run s = (.error (.fault cause), s) ∧
      (loadDirectory true t settings directory).run.run u = (.error (.fault cause), u)) ∨
    ∃ d ps xs ys s' u', directory.expand t.home = .ok d ∧ Definition.Lists t d ps ∧
      (loadDirectory false t settings directory).run.run s = (.ok (Trial.loaded xs), s') ∧
      Tried t settings false s ps xs s' ∧
      (loadDirectory true t settings directory).run.run u = (.ok (Trial.loaded ys), u') ∧
      Tried t settings true u ps ys u' ∧
      Trial.Agree t settings ps s'.heap (Trial.loaded xs) u'.heap (Trial.loaded ys) := by
  cases hps : Catalog.sought t directory with
  | error cause => exact .inl ⟨cause, rfl, loadDirectory_error hps, loadDirectory_error hps⟩
  | ok ps =>
    obtain ⟨d, hd, hlists⟩ := Catalog.lists_sought hps
    have hs : false = true → s.Tempered own Delivery.OnFile := fun he => by cases he
    obtain ⟨xs, s', hx, hxs⟩ := loadDirectory_tried hown hs settings hps
    obtain ⟨ys, u', hy, hys⟩ := loadDirectory_tried hown (fun _ : true = true => hu) settings hps
    have hagree := Trial.agree_loaded
      (Trial.forall₂_alike hxs.faithful hys.faithful (hxs.paths.trans hys.paths.symm))
    rw [hxs.paths] at hagree
    exact .inr ⟨d, ps, xs, ys, s', u', hd, hlists, hx, hxs, hy, hys, hagree⟩

theorem loadFile_base {p : FilePath} {e : Failure}
    (hp : p = { names := ["base", "a.json"] } ∨ p = { names := ["base", "b.json"] } ∨
      p = { names := ["base", "c.json"] })
    (he : ((loadFile .twofold {} p).run.run {}).1 = .error e) :
    e = .fault (.decoding ⟨.invalidStart, 0xff, 0, 1⟩) := by
  obtain rfl | rfl | rfl := hp
  · have hok : ((loadFile .twofold {} { names := ["base", "a.json"] }).run.run {}).1.isOk = true := by
      decide +kernel
    rw [he] at hok
    cases hok
  · have hok : ((loadFile .twofold {} { names := ["base", "b.json"] }).run.run {}).1.isOk = true := by
      decide +kernel
    rw [he] at hok
    cases hok
  · have herror : ((loadFile .twofold {} { names := ["base", "c.json"] }).run.run {}).1 =
        .error (.fault (.decoding ⟨.invalidStart, 0xff, 0, 1⟩)) := by
      decide +kernel
    exact Except.error.inj (he.symm.trans herror)

theorem loadDirectory_base :
    loadDirectory false .twofold {} { names := ["base"] } = loadEach (loadIn false .twofold {})
      [{ names := ["base", "a.json"] }, { names := ["base", "b.json"] },
        { names := ["base", "c.json"] }] := by
  rw [loadDirectory_listed rfl rfl, Definition.paths_base]

/-- Of three files two give their prompts in both modes. The third cannot be decoded; its error is
counted though the subscriber fails. -/
theorem loadDirectory_mixed :
    Session.grumbling.Tempered (fun context => Value.among [context]) Delivery.OnFile ∧
    ∃ xs ys s' u',
      (loadDirectory false .twofold {} { names := ["base"] }).run.run {} =
        (.ok (Trial.loaded xs), s') ∧
      (loadDirectory true .twofold {} { names := ["base"] }).run.run .grumbling =
        (.ok (Trial.loaded ys), u') ∧
      (Trial.prompts xs).map Prompt.name = [.text "Letter", .text "Note"] ∧
      List.Forall₂ (fun p q => Prompt.Equal s'.heap p u'.heap q) (Trial.prompts xs)
        (Trial.prompts ys) ∧
      Trial.errors xs = Trial.errors ys ∧
      Trial.errors ys = ["'utf-8' codec can't decode byte 0xff in position 0: invalid start byte"] ∧
      u'.ledger.counts .templateParse = 1 := by
  have htempered : Session.grumbling.Tempered (fun context => Value.among [context])
      Delivery.OnFile :=
    fun _ _ _ _ => .fail fun _ _ => ⟨rfl, _, rfl⟩
  refine ⟨htempered, ?_⟩
  obtain ⟨cause, hsought, -⟩ | ⟨d, ps, xs, ys, s', u', hd, hlists, hx, hxs, hy, hys, hagree⟩ :=
    loadDirectory_modes .twofold {} { names := ["base"] } {} .grumbling _ (fun _ _ hq => hq)
      htempered
  · cases (Catalog.sought_eq_ok.2 ⟨_, true, rfl, rfl, rfl⟩).symm.trans hsought
  · have hload : ((loadDirectory false .twofold {} { names := ["base"] }).run.run {}).1.toOption.map
        (fun l => (l.prompts.map Prompt.name, l.errors)) = some ([.text "Letter", .text "Note"],
          ["'utf-8' codec can't decode byte 0xff in position 0: invalid start byte"]) := by
      rw [loadDirectory_base]
      decide +kernel
    rw [hx] at hload
    obtain ⟨hnames, herrors⟩ := Prod.mk.inj (Option.some.inj hload)
    have hsame : Trial.errors xs = Trial.errors ys := hagree.texts fun p hp v e he htext => by
      cases hd
      have hmem := ((Definition.lists_paths rfl).mem_iff p).2 ((hlists.mem_iff p).1 hp)
      rw [Definition.paths_base, List.mem_cons, List.mem_cons, List.mem_singleton] at hmem
      obtain rfl := loadFile_base hmem (loadFile_error_anywhere he {})
      have hmessage : (Fault.decoding ⟨.invalidStart, 0xff, 0, 1⟩).message ≠ "" := by
        decide +kernel
      exact hmessage (Except.ok.inj htext)
    have herrors' := hsame.symm.trans herrors
    refine ⟨xs, ys, s', u', hx, hy, hnames, hagree.prompts, hsame, herrors', ?_⟩
    rw [hys.counts, herrors']
    rfl

end Action

end Promptbook

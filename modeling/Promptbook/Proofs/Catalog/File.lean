import Promptbook.Catalog.Definition
import Promptbook.Proofs.Action
import Promptbook.Proofs.Files.Loading
import Promptbook.Proofs.Files.Places
import Promptbook.Proofs.Prompt.Made

namespace Promptbook

variable {t : FileTree} {p : FilePath} {h k : Heap} {v : Value} {f : Format} {cs : List Char}
  {settings : ReviewSettings}

theorem Format.grafts_read (hr : f.read h cs = .ok (v, k)) : h.Grafts k ∧ h.Own k v := by
  cases f with
  | json =>
    rw [read] at hr
    split at hr
    · next j _ =>
      obtain ⟨hg, -, hown⟩ := Heap.grafts_ofJson (.refl h) j
      rw [Except.ok.inj hr] at hg hown
      exact ⟨hg, hown⟩
    · cases hr
    · cases hr
  | yaml =>
    rw [read] at hr
    split at hr
    · next r hl =>
      cases hr
      exact Yaml.grafts_load hl
    · cases hr
    · cases hr

namespace FileTree

/-- A text is read, or there is a file that cannot be read, if and only if a path can lead to a file
and the bytes of the file there are a text. -/
theorem text_or_file_iff {P : List Char → Prop} :
    ((∀ cs, t.text p = .ok cs → P cs) ∧
        ∀ cause, t.text p = .error cause → ∃ c path, cause = .file c path) ↔
      hasNull p = false ∧ ∀ bytes, t.locate p = .ok (.file bytes) →
        ∃ cs, Text.decodeUtf8 bytes = .ok cs ∧ P (Text.unifyNewlines cs) := by
  cases hn : hasNull p with
  | true =>
    have ht : t.text p = .error .nullInPath := by
      simp only [text, bytes, hn]
      rfl
    refine iff_of_false (fun hall => ?_) fun hall => by cases hall.1
    obtain ⟨c, path, he⟩ := hall.2 _ ht
    cases he
  | false =>
    rw [eq_self, true_and, text_eq hn]
    cases t.locate p with
    | error cause => simp
    | ok node =>
      cases node with
      | directory => simp
      | file bytes =>
        simp only [Except.ok.injEq, FileNode.file.injEq, forall_eq']
        cases Text.decodeUtf8 bytes <;> simp

end FileTree

namespace Definition

def ofText (p : FilePath) (h : Heap) (f : Format) (cs : List Char) :
    Except Failure (Value × Heap) :=
  match f.read h cs with
  | .error (.malformed message) => .error (.parse p.text s!"invalid {f.name}: {message}")
  | .error (.fault cause) => .error (.fault cause)
  | .ok (v, h) =>
    if h.isDict v then .ok (v, h) else .error (.parse p.text "definition must be a mapping")

theorem read_eq (hf : p.format? = some f) : read t p h =
    match t.text p with
    | .error (.file cause path) =>
      .error (.parse p.text s!"cannot read file: {(Fault.file cause path).message}")
    | .error cause => .error (.fault cause)
    | .ok cs => ofText p h f cs := by
  simp only [read, hf]
  cases t.text p with
  | ok cs => rfl
  | error cause => cases cause <;> rfl

theorem parse_of_ofText {e : Failure} (hr : ofText p h f cs = .error e) :
    (∃ cause, f.read h cs = .error (.fault cause) ∧ e = .fault cause) ∨
      ∃ reason, e = .parse p.text reason := by
  rw [ofText] at hr
  split at hr
  · cases hr
    exact .inr ⟨_, rfl⟩
  · next cause hc =>
    cases hr
    exact .inl ⟨cause, hc, rfl⟩
  · split at hr
    · cases hr
    · cases hr
      exact .inr ⟨_, rfl⟩

theorem read_error {e : Failure} (hr : read t p h = .error e) :
    (∃ cause, e = .fault cause) ∨ ∃ reason, e = .parse p.text reason := by
  cases hf : p.format? with
  | none =>
    rw [read, hf] at hr
    cases hr
    exact .inr ⟨_, rfl⟩
  | some f =>
    rw [read_eq hf] at hr
    split at hr
    · cases hr
      exact .inr ⟨_, rfl⟩
    · cases hr
      exact .inl ⟨_, rfl⟩
    · obtain ⟨cause, -, he⟩ | he := parse_of_ofText hr
      · exact .inl ⟨cause, he⟩
      · exact .inr he

/-- Data that is a definition has a review, and hints that can be read if it is accepted. -/
structure Reviewable (settings : ReviewSettings) (k : Heap) (v : Value) : Prop where
  ends : ∃ w, Review.record settings k v = .ok w
  hints : ∀ w m u, Review.record settings k v = .ok w → w.errors = [] → k.mapping? v = some m →
    m.field "metadata" = .ok u → k.truthy u = true → Hints.Readable k u

/-- What a text says in a format can be built, and if it says a mapping, that can be reviewed. -/
structure Loadable (settings : ReviewSettings) (h : Heap) (f : Format) (cs : List Char) :
    Prop where
  builds : ∀ cause, f.read h cs ≠ .error (.fault cause)
  reviewable : ∀ v k, f.read h cs = .ok (v, k) → k.isDict v = true → Reviewable settings k v

theorem ofText_eq_ok : ofText p h f cs = .ok (v, k) ↔
    f.read h cs = .ok (v, k) ∧ k.isDict v = true := by
  rw [ofText]
  cases f.read h cs with
  | error e => cases e <;> simp
  | ok r =>
    by_cases hd : r.2.isDict r.1 = true
    · simp only [hd, if_true, Except.ok.injEq]
      constructor
      · intro hr
        cases hr
        exact ⟨rfl, hd⟩
      · exact fun hr => hr.1
    · simp only [hd, Bool.false_eq_true, if_false, Except.ok.injEq, reduceCtorEq, false_iff]
      intro hr
      obtain ⟨rfl, hv⟩ := hr
      exact hd hv

theorem read_eq_ok (hr : read t p h = .ok (v, k)) :
    h.Grafts k ∧ h.Own k v ∧ ∃ f cs, p.format? = some f ∧ t.text p = .ok cs ∧
      f.read h cs = .ok (v, k) ∧ k.isDict v = true := by
  cases hf : p.format? with
  | none =>
    rw [read, hf] at hr
    cases hr
  | some f =>
    rw [read_eq hf] at hr
    split at hr
    · cases hr
    · cases hr
    · next cs ht =>
      obtain ⟨hread, hd⟩ := ofText_eq_ok.1 hr
      obtain ⟨hg, hown⟩ := f.grafts_read hread
      exact ⟨hg, hown, f, cs, rfl, ht, hread, hd⟩

end Definition

namespace Action

variable {s : Session} {warnings : List String}

theorem run_logWarnings (p : FilePath) (warnings : List String) (s : Session) :
    ∃ lines, (logWarnings p warnings).run.run s = (.ok (), { s with lines }) := by
  induction warnings generalizing s with
  | nil => exact ⟨s.lines, rfl⟩
  | cons warning warnings ih =>
    obtain ⟨lines, hrun⟩ := ih { s with lines := s.lines ++ [⟨.debug, s!"{p.name}: {warning}"⟩] }
    exact ⟨lines, (run_bind_ok (run_log _ _ s)).trans hrun⟩

theorem run_change {α : Type} {f : Heap → Except Failure (α × Heap)} :
    (change f).run.run s =
      match f s.heap with
      | .ok (x, h) => (.ok x, { s with heap := h })
      | .error e => (.error e, s) := by
  rw [change, run_bind_ok (run_get s)]
  cases f s.heap with
  | ok r => rfl
  | error e => rfl

theorem run_edit_error {α : Type} {f : Heap → Except Fault (α × Heap)} {cause : Fault}
    (hf : f s.heap = .error cause) : (edit f).run.run s = (.error (.fault cause), s) :=
  run_bind_error (run_read_error hf)

theorem run_loadFile (t : FileTree) (settings : ReviewSettings) (p : FilePath) (s : Session) :
    ∃ lines, (loadFile t settings p).run.run s =
      match Definition.read t p s.heap with
      | .error e => (.error e, s)
      | .ok (v, k) =>
        match Review.record settings k v with
        | .error cause => (.error (.fault cause), { s with heap := k })
        | .ok w =>
          if w.errors = [] then
            match Prompt.ofValue k k.nodes.size v with
            | .error cause => (.error (.fault cause), { s with heap := k, lines })
            | .ok (q, l) => (.ok q, { s with heap := l, lines })
          else (.error (.parse p.text ("; ".intercalate w.errors)), { s with heap := k }) := by
  rw [loadFile]
  cases hr : Definition.read t p s.heap with
  | error e =>
    have hchange := run_change (s := s) (f := Definition.read t p)
    rw [hr] at hchange
    exact ⟨[], run_bind_error hchange⟩
  | ok r =>
    have hchange := run_change (s := s) (f := Definition.read t p)
    rw [hr] at hchange
    rw [run_bind_ok hchange]
    dsimp only
    cases hw : Review.record settings r.2 r.1 with
    | error cause => exact ⟨[], run_bind_error (run_read_error hw)⟩
    | ok w =>
      rw [run_bind_ok (run_read_eq_ok.2 ⟨hw, rfl⟩)]
      by_cases he : w.errors = []
      · have ha : w.accepts = true := Verdict.accepts_iff.2 he
        obtain ⟨lines, hlog⟩ := run_logWarnings p w.warnings { s with heap := r.2 }
        simp only [ha, he, Bool.not_true, Bool.false_eq_true, if_false, if_true]
        rw [run_bind_ok hlog]
        cases hq : Prompt.ofValue r.2 r.2.nodes.size r.1 with
        | error cause => exact ⟨lines, run_edit_error hq⟩
        | ok q => exact ⟨lines, run_edit_eq_ok.2 ⟨q.2, hq, rfl⟩⟩
      · have ha : w.accepts = false := by
          rw [← Bool.not_eq_true, Verdict.accepts_iff]
          exact he
        simp only [ha, he, Bool.not_false, if_true, if_false]
        exact ⟨[], rfl⟩

theorem loadFile_leaves {o : Except Failure Prompt} {s' : Session}
    (hrun : (loadFile t settings p).run.run s = (o, s')) :
    s.heap.Extends s'.heap ∧ ∃ lines, s' = { s with heap := s'.heap, lines } := by
  obtain ⟨lines, hspec⟩ := run_loadFile t settings p s
  rw [hspec] at hrun
  split at hrun
  · cases hrun
    exact ⟨.refl s.heap, _, rfl⟩
  · next v k hr =>
    have hk := (Definition.read_eq_ok hr).1.keeps
    split at hrun
    · cases hrun
      exact ⟨hk, _, rfl⟩
    · split at hrun
      · split at hrun
        · cases hrun
          exact ⟨hk, _, rfl⟩
        · next q l hq =>
          cases hrun
          obtain ⟨m, -, hmade⟩ := Prompt.madeOf_of_ofValue hq
          exact ⟨hk.trans hmade.extends.1, _, rfl⟩
      · cases hrun
        exact ⟨hk, _, rfl⟩

theorem loadFile_eq_ok {q : Prompt} {s' : Session}
    (hrun : (loadFile t settings p).run.run s = (.ok q, s')) :
    ∃ v k w, Definition.read t p s.heap = .ok (v, k) ∧ Review.record settings k v = .ok w ∧
      w.errors = [] ∧ Prompt.ofValue k k.nodes.size v = .ok (q, s'.heap) := by
  obtain ⟨lines, hspec⟩ := run_loadFile t settings p s
  rw [hspec] at hrun
  split at hrun
  · cases hrun
  · next v k hr =>
    split at hrun
    · cases hrun
    · next w hw =>
      split at hrun
      · next he =>
        split at hrun
        · cases hrun
        · next q l hq =>
          cases hrun
          exact ⟨v, k, w, hr, hw, he, hq⟩
      · cases hrun

theorem loadFile_error {e : Failure}
    (hrun : ((loadFile t settings p).run.run s).1 = .error e) :
    (∃ cause, e = .fault cause) ∨ ∃ reason, e = .parse p.text reason := by
  obtain ⟨lines, hspec⟩ := run_loadFile t settings p s
  rw [hspec] at hrun
  split at hrun
  · next e' hr =>
    cases hrun
    exact Definition.read_error hr
  · split at hrun
    · cases hrun
      exact .inl ⟨_, rfl⟩
    · split at hrun
      · split at hrun
        · cases hrun
          exact .inl ⟨_, rfl⟩
        · cases hrun
      · cases hrun
        exact .inr ⟨_, rfl⟩

/-- Loading a file ends with a prompt, or with a failure to parse the file. -/
def EndsParsed (t : FileTree) (settings : ReviewSettings) (p : FilePath) (s : Session) : Prop :=
  ∀ e, ((loadFile t settings p).run.run s).1 = .error e → ∃ reason, e = .parse p.text reason

theorem endsParsed_of_error {e : Failure} (hr : Definition.read t p s.heap = .error e) :
    EndsParsed t settings p s ↔ ∃ reason, e = .parse p.text reason := by
  obtain ⟨lines, hrun⟩ := run_loadFile t settings p s
  rw [hr] at hrun
  rw [EndsParsed, hrun]
  constructor
  · intro hall
    exact hall e rfl
  · intro he e' he'
    cases he'
    exact he

/-- Of data that was read, only hints can keep a prompt from being made once it is accepted. -/
theorem endsParsed_of_read (hc : s.heap.Closed) (hr : Definition.read t p s.heap = .ok (v, k)) :
    EndsParsed t settings p s ↔ Definition.Reviewable settings k v := by
  obtain ⟨hg, hown, -⟩ := Definition.read_eq_ok hr
  obtain ⟨lines, hrun⟩ := run_loadFile t settings p s
  simp only [hr] at hrun
  rw [EndsParsed, hrun]
  cases hw : Review.record settings k v with
  | error cause =>
    constructor
    · intro hall
      obtain ⟨reason, he⟩ := hall _ rfl
      cases he
    · intro hd
      obtain ⟨w, hw'⟩ := hd.ends
      rw [hw] at hw'
      cases hw'
  | ok w =>
    by_cases he : w.errors = []
    · obtain ⟨m, hm, ha⟩ := Review.record_accepts hw he
      have hmade : (∃ q l, Prompt.ofValue k k.nodes.size v = .ok (q, l)) ↔ _ :=
        Prompt.isOk_ofValue_iff (hg.closed hc) (hg.literal hown) hm ha
      simp only [he, if_true]
      constructor
      · intro hall
        refine ⟨⟨w, hw⟩, fun w' m' u _ _ hm' hu htruthy => ?_⟩
        obtain rfl := Option.some.inj (hm.symm.trans hm')
        refine hmade.1 ?_ u hu htruthy
        cases hq : Prompt.ofValue k k.nodes.size v with
        | ok q => exact ⟨q.1, q.2, rfl⟩
        | error cause =>
          obtain ⟨reason, he⟩ := hall (.fault cause) (by rw [hq])
          cases he
      · intro hd e heq
        obtain ⟨q, l, hq⟩ := hmade.2 fun u => hd.hints w m u hw he hm
        rw [hq] at heq
        cases heq
    · simp only [he, if_false]
      constructor
      · intro _
        refine ⟨⟨w, hw⟩, fun w' m u hw' he' => ?_⟩
        rw [hw] at hw'
        cases hw'
        exact (he he').elim
      · intro _ e heq
        cases heq
        exact ⟨_, rfl⟩

theorem endsParsed_of_text (hc : s.heap.Closed) (hf : p.format? = some f)
    (ht : t.text p = .ok cs) :
    EndsParsed t settings p s ↔ Definition.Loadable settings s.heap f cs := by
  have hread := Definition.read_eq (t := t) (h := s.heap) hf
  simp only [ht] at hread
  cases hr : Definition.ofText p s.heap f cs with
  | ok r =>
    obtain ⟨hbuilt, hd⟩ := Definition.ofText_eq_ok.1 hr
    rw [endsParsed_of_read hc (hread.trans hr)]
    constructor
    · intro hv
      refine ⟨fun cause hcause => ?_, fun v k hb _ => ?_⟩
      · rw [hbuilt] at hcause
        cases hcause
      · rw [hbuilt] at hb
        cases hb
        exact hv
    · exact fun hl => hl.reviewable _ _ hbuilt hd
  | error e =>
    rw [endsParsed_of_error (hread.trans hr)]
    constructor
    · intro he
      obtain ⟨reason, rfl⟩ := he
      refine ⟨fun cause hcause => ?_, fun v k hb hd => ?_⟩
      · rw [Definition.ofText, hcause] at hr
        cases hr
      · rw [Definition.ofText_eq_ok.2 ⟨hb, hd⟩] at hr
        cases hr
    · intro hl
      obtain ⟨cause, hcause, -⟩ | he := Definition.parse_of_ofText hr
      · exact (hl.builds cause hcause).elim
      · exact he

theorem endsParsed_of_unread {cause : Fault} (hf : p.format? = some f)
    (ht : t.text p = .error cause) :
    EndsParsed t settings p s ↔ ∃ c path, cause = .file c path := by
  have hread := Definition.read_eq (t := t) (h := s.heap) hf
  rw [ht] at hread
  split at hread
  · next c path he =>
    cases he
    rw [endsParsed_of_error hread]
    exact iff_of_true ⟨_, rfl⟩ ⟨c, path, rfl⟩
  · next hne he =>
    cases he
    rw [endsParsed_of_error hread]
    refine iff_of_false (fun ⟨_, he⟩ => by cases he) fun ⟨c, path, he⟩ => ?_
    exact hne c path he
  · next he => cases he

/-- Loading a file ends with a prompt or with a failure to parse it if and only if, where the suffix
is that of a format, the path can lead to a file, and the bytes of the file there are a text that
can be loaded. -/
theorem endsParsed_iff (hc : s.heap.Closed) : EndsParsed t settings p s ↔
    ∀ f, p.format? = some f → FileTree.hasNull p = false ∧
      ∀ bytes, t.locate p = .ok (.file bytes) → ∃ cs, Text.decodeUtf8 bytes = .ok cs ∧
        Definition.Loadable settings s.heap f (Text.unifyNewlines cs) := by
  cases hf : p.format? with
  | none =>
    rw [endsParsed_of_error (by rw [Definition.read, hf])]
    exact iff_of_true ⟨_, rfl⟩ fun f hf => by cases hf
  | some f =>
    simp only [Option.some.injEq, forall_eq']
    rw [← FileTree.text_or_file_iff]
    cases ht : t.text p with
    | ok cs => simp [endsParsed_of_text hc hf ht]
    | error cause => simp [endsParsed_of_unread hf ht]

end Action

def FileTree.single (bytes : List UInt8) : FileTree where
  nodes := [(["a.json"], .file bytes)]

def FilePath.single : FilePath where
  names := ["a.json"]

theorem FilePath.format?_single : single.format? = some .json := by
  have hs : single.suffix = ".json" := rfl
  rw [format?, hs]
  rfl

namespace Action

/-- An empty mapping is rejected. -/
theorem endsParsed_single : Heap.empty.Closed ∧
    EndsParsed (.single [0x7b, 0x7d]) {} .single {} := by
  refine ⟨Heap.closed_empty, (endsParsed_iff (s := {}) Heap.closed_empty).2 ?_⟩
  intro f hf
  cases FilePath.format?_single.symm.trans hf
  refine ⟨rfl, fun bytes hb => ⟨['{', '}'], ?_, ?_⟩⟩
  · cases hb
    decide +kernel
  · have hparse : Json.parse Heap.walkLimit ['{', '}'] = .ok (.object []) := rfl
    have hread : Format.json.read .empty ['{', '}'] = .ok (Heap.empty.store (.dict [])) := by
      rw [Format.read, hparse]
      rfl
    refine ⟨fun cause hc => ?_, fun v k hv _ => ?_⟩
    · cases hread.symm.trans hc
    · cases hread.symm.trans hv
      refine ⟨⟨_, rfl⟩, fun w m u hw he => ?_⟩
      cases hw
      cases he

theorem text_undecodable : (FileTree.single [0xff]).text .single =
    .error (.decoding ⟨.invalidStart, 0xff, 0, 1⟩) := by
  have hl : (FileTree.single [0xff]).locate .single = .ok (.file [0xff]) := rfl
  have hd : Text.decodeUtf8 [0xff] = .error ⟨.invalidStart, 0xff, 0, 1⟩ := by decide +kernel
  rw [FileTree.text_eq rfl, hl]
  simp only [hd]

theorem loadFile_undecodable (settings : ReviewSettings) (s : Session) :
    ((loadFile (.single [0xff]) settings .single).run.run s).1 =
      .error (.fault (.decoding ⟨.invalidStart, 0xff, 0, 1⟩)) := by
  obtain ⟨lines, hrun⟩ := run_loadFile (.single [0xff]) settings .single s
  rw [hrun, Definition.read_eq FilePath.format?_single, text_undecodable]

/-- A byte that begins no character is not reported as a failure to parse the file. -/
theorem not_endsParsed_single :
    ((loadFile (.single [0xff]) {} .single).run.run {}).1 =
        .error (.fault (.decoding ⟨.invalidStart, 0xff, 0, 1⟩)) ∧
      ¬ EndsParsed (.single [0xff]) {} .single {} := by
  refine ⟨loadFile_undecodable {} {}, ?_⟩
  rw [endsParsed_of_unread FilePath.format?_single text_undecodable]
  intro he
  obtain ⟨c, path, he⟩ := he
  cases he

end Action

end Promptbook

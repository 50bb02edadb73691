import Promptbook.Proofs.Body.Endings
import Promptbook.Proofs.Body.Shifted
import Promptbook.Proofs.Body.Trodden

namespace Promptbook

namespace Heap

variable {h k l : Heap} {v w : Value} {r : Ref}

structure Untouched (h k : Heap) (v : Value) : Prop where
  here : h.Holds v
  reaches : ∀ r, k.Reaches v r ↔ h.Reaches v r
  same : ∀ r, h.Reaches v r → k.get? r = h.get? r

def Parted (h : Heap) (v w : Value) : Prop :=
  ∀ r node, h.get? r = some node → node.isOpen = true → h.Reaches v r → ¬ h.Reaches w r

theorem Adds.untouched (hk : h.Adds k) (hc : h.Closed) (hv : h.Holds v) : h.Untouched k v where
  here := hv
  reaches _ := hk.keeps.reaches_iff hc hv
  same _ hr := hk.keeps.get?_eq (hc.reached hv hr)

theorem Anew.parted (hv : h.Anew k v) (hk : h.Adds k) (hc : h.Closed) (hw : h.Holds w) :
    k.Parted v w := by
  intro r node hn ho hr hreach
  obtain ⟨old, hold⟩ := hc.reached hw ((hk.keeps.reaches_iff hc hw).1 hreach)
  rw [hv r node hr hn ho] at hold
  cases hold

theorem Parted.later (hp : h.Parted v w) (hk : h.Adds k) (hc : h.Closed) (hv : h.Holds v)
    (hw : h.Holds w) : k.Parted v w := by
  intro r node hn ho hr hreach
  rw [hk.keeps.reaches_iff hc hv] at hr
  rw [hk.keeps.reaches_iff hc hw] at hreach
  rw [hk.keeps.get?_eq (hc.reached hv hr)] at hn
  exact hp r node hn ho hr hreach

theorem adds_supply (hc : h.Closed) (values : Value) : h.Adds (h.supply values).2 :=
  ⟨h.extends_supply values, closed_supply hc values⟩

theorem Anew.mono (hv : h.Anew k v) (hh : l.Extends h) : l.Anew k v := by
  intro r node hr hn ho
  cases hl : l.get? r with
  | none => rfl
  | some old =>
    have hnone := hv r node hr hn ho
    rw [hh.keeps hl] at hnone
    cases hnone

theorem Anew.later (hv : h.Anew k v) (hk : k.Adds l) (hc : k.Closed) (hheld : k.Holds v) :
    h.Anew l v := by
  intro r node hr hn ho
  rw [hk.keeps.reaches_iff hc hheld] at hr
  rw [hk.keeps.get?_eq (hc.reached hheld hr)] at hn
  exact hv r node hr hn ho

end Heap

namespace Action

variable {h k : Heap} {hints : Option Hints} {copied : Hints} {payload : Payload} {t : Session}

theorem copyHints_anew (hc : h.Closed)
    (hv : ∀ m, hints = some m → ∀ v ∈ [m.languages, m.context, m.notes, m.legacy], h.Holds v)
    (hrun : copyHints hints h = .ok (copied, k)) :
    ∀ w ∈ copied.parts, k.Holds w ∧ h.Anew k w := by
  cases hints with
  | none =>
    cases hrun
    have hfirst : h.get? ((h.alloc (.list [])).2.alloc (.list [])).1 = none :=
      Heap.get?_eq_none_of_extends (.alloc h _) (Heap.get?_alloc_fst _ _)
    have hplain (k : Heap) (v : Value) (hv : ∀ r, v ≠ .ref r) : k.Holds v ∧ h.Anew k v :=
      ⟨Heap.holds_of_not_ref hv, Heap.anew_of_not_ref hv⟩
    simp only [Hints.parts, List.forall_mem_cons]
    refine ⟨⟨?_, ?_⟩, ⟨Heap.holds_store _ _, ?_⟩, hplain _ _ ?_, hplain _ _ ?_,
      List.forall_mem_nil _⟩
    · exact (Heap.Extends.alloc _ _).holds (Heap.holds_store h _)
    · exact Heap.anew_of_empty (Heap.get?_alloc_of_some (Heap.get?_alloc h _))
        (Heap.get?_alloc_fst h _)
    · exact Heap.anew_of_empty (Heap.get?_alloc _ _) hfirst
    · exact fun _ heq => by cases heq
    · exact fun _ heq => by cases heq
  | some m =>
    simp only [copyHints, bind_eq_ok, Prod.exists] at hrun
    obtain ⟨vs, s, hcopy, hrun⟩ := hrun
    obtain ⟨hs, hg, rfl, hcov⟩ := (Heap.copies_copyWithin hc _).each
      (Heap.Copying.sound_start (.refl h) hc) (hv m rfl) hcopy
    cases hrun
    have hparts : ∀ w ∈ [m.languages, m.context, m.notes, m.legacy].map (Value.map s.image),
        s.heap.Holds w ∧ h.Anew s.heap w := by
      intro w hw
      obtain ⟨v, hmem, rfl⟩ := List.mem_map.1 hw
      have hcopied := Heap.isCopy_of_covers hs hg (hcov v hmem)
      exact ⟨hcopied.holds (hv m rfl v hmem), hcopied.anew hc (hv m rfl v hmem)⟩
    exact hparts

variable {reporting : Bool} {p : Prompt} {values : Value} {s : Session} {errors : List String}
  {cause : Fault}

theorem tell_rejection_adds (reporting : Bool) (hs : s.heap.Closed) (hid : s.heap.Holds p.id) :
    s.heap.Adds
      ((tell reporting (reportRejection p errors) (.processing errors)).run.run s).2.heap := by
  cases reporting with
  | false => exact .refl hs
  | true => exact reportRejection_adds hs hid errors

theorem tell_substitution_adds (reporting : Bool) (hs : s.heap.Closed) (hid : s.heap.Holds p.id)
    (hv : s.heap.Supplied values) :
    s.heap.Adds ((tell reporting (reportSubstitution p values cause) ()).run.run s).2.heap := by
  cases reporting with
  | false => exact .refl hs
  | true => exact reportSubstitution_adds hs hid hv cause

/-- A resolution only adds containers, however it ends. -/
theorem resolvePrompt_adds (hs : s.heap.Closed) (hp : p.Stored s.heap)
    (hv : s.heap.Supplied values) :
    s.heap.Adds ((resolvePrompt reporting p values).run.run s).2.heap := by
  cases hfill : p.fill s.heap values with
  | escaped cause =>
    rw [run_escaped hfill]
    exact .refl hs
  | rejected errors =>
    rw [run_rejected hfill]
    exact tell_rejection_adds reporting hs hp.id
  | failed cause =>
    rw [run_failed hfill]
    exact tell_substitution_adds reporting hs hp.id hv
  | filled content used k =>
    obtain ⟨hk, -⟩ := Prompt.adds_of_fill hs hp.body hfill
    obtain ⟨lines, hrun⟩ := run_filled reporting hfill
    rw [hrun]
    cases k.text p.id with
    | error unnamed => exact hk
    | ok id =>
      cases hcopy : copyHints p.hints k with
      | error uncopied => exact hk
      | ok r =>
        obtain ⟨hkeeps, hclosed⟩ := copyHints_keeps hk.closed (hp.mono hk.keeps).hints hcopy
        exact hk.trans ⟨hkeeps, hclosed⟩

/-- What a payload is made of is there, and its lists and dictionaries are new. -/
theorem resolvePrompt_anew (hs : s.heap.Closed) (hp : p.Stored s.heap)
    (hrun : (resolvePrompt reporting p values).run.run s = (.ok payload, t)) :
    ∀ w ∈ payload.parts, t.heap.Holds w ∧ s.heap.Anew t.heap w := by
  obtain ⟨k, hfill, hcopy⟩ := resolvePrompt_eq_ok hrun
  obtain ⟨hk, hcontent, hnew⟩ := Prompt.adds_of_fill hs hp.body hfill
  have hhints := (hp.mono hk.keeps).hints
  obtain ⟨hkeeps, hclosed⟩ := copyHints_keeps hk.closed hhints hcopy
  have hl : k.Adds t.heap := ⟨hkeeps, hclosed⟩
  rw [Payload.parts, List.forall_mem_cons]
  refine ⟨⟨hkeeps.holds hcontent, hnew.later hl hk.closed hcontent⟩, fun w hw => ?_⟩
  obtain ⟨hheld, hnew⟩ := copyHints_anew hk.closed hhints hcopy w hw
  exact ⟨hheld, hnew.mono hk.keeps⟩

end Action

/-- What a resolution is given: a prompt, if there is one, and variables. -/
structure Resolution where
  prompt? : Option Prompt
  values : Value

namespace Resolution

variable {c : Resolution} {reporting : Bool} {s t u v : Session} {h k : Heap} {payload : Payload}
  {p : Prompt} {w : Value}

def parts (c : Resolution) : List Value :=
  c.values :: (c.prompt?.map Prompt.parts).getD []

def run (reporting : Bool) (c : Resolution) (s : Session) : Except Failure Payload × Session :=
  (Action.resolve reporting c.prompt? c.values).run.run s

/-- What a resolution is given is there, the names of the variables included. -/
structure Held (h : Heap) (c : Resolution) : Prop where
  parts : ∀ v ∈ c.parts, h.Holds v
  names : ∀ m, h.mapping? c.values = some m → ∀ name ∈ m.keys, h.Holds name

theorem Held.supplied (hc : c.Held h) : h.Supplied c.values :=
  ⟨hc.parts _ List.mem_cons_self, hc.names⟩

theorem Held.prompt (hc : c.Held h) (hp : c.prompt? = some p) : ∀ v ∈ p.parts, h.Holds v := by
  intro v hv
  apply hc.parts v
  rw [Resolution.parts, hp]
  exact List.mem_cons_of_mem _ hv

theorem Held.stored (hc : c.Held h) (hp : c.prompt? = some p) : p.Stored h where
  id := hc.prompt hp _ (by simp [Prompt.parts])
  body := hc.prompt hp _ (by simp [Prompt.parts])
  hints _ hm v hv := hc.prompt hp v (Prompt.mem_parts_of_hints hm hv)

theorem Held.mono (hc : c.Held h) (he : h.Extends k) : c.Held k :=
  ⟨fun v hv => he.holds (hc.parts v hv), (hc.supplied.mono he).names⟩

theorem run_none (reporting : Bool) (s : Session) (hp : c.prompt? = none) :
    c.run reporting s = (.error (.processing [Body.absent]), s) := by
  rw [run, hp]
  rfl

theorem run_some (reporting : Bool) (s : Session) (hp : c.prompt? = some p) :
    c.run reporting s = (Action.resolvePrompt reporting p (s.heap.supply c.values).1).run.run
      (s.supplied c.values) := by
  rw [run, hp]
  exact Action.run_resolve

theorem adds (reporting : Bool) (hs : s.heap.Closed) (hc : c.Held s.heap) :
    s.heap.Adds (c.run reporting s).2.heap := by
  cases hp : c.prompt? with
  | none =>
    rw [run_none reporting s hp]
    exact .refl hs
  | some p =>
    have hv := Heap.adds_supply hs c.values
    rw [run_some reporting s hp]
    exact hv.trans (Action.resolvePrompt_adds (s := s.supplied c.values) hv.closed
      ((hc.stored hp).mono hv.keeps) (Heap.supplied_supply hc.supplied))

theorem untouched (reporting : Bool) (hs : s.heap.Closed) (hc : c.Held s.heap)
    (hw : s.heap.Holds w) : s.heap.Untouched (c.run reporting s).2.heap w :=
  (adds reporting hs hc).untouched hs hw

theorem untouched_trodden (hs : s.heap.Closed) (hc : c.Held s.heap) (hp : c.prompt? = some p)
    (hw : s.heap.Holds w) :
    s.heap.Untouched (p.trodden (s.heap.supply c.values).2 (s.heap.supply c.values).1) w := by
  have hv := Heap.adds_supply hs c.values
  have hbody := hv.keeps.holds (hc.stored hp).body
  exact (hv.trans (Prompt.trodden_spec hv.closed hbody _).1).untouched hs hw

theorem anew (hs : s.heap.Closed) (hc : c.Held s.heap)
    (hrun : (c.run reporting s).1 = .ok payload) :
    ∀ w ∈ payload.parts,
      (c.run reporting s).2.heap.Holds w ∧ s.heap.Anew (c.run reporting s).2.heap w := by
  cases hp : c.prompt? with
  | none =>
    rw [run_none reporting s hp] at hrun
    cases hrun
  | some p =>
    have hv := Heap.adds_supply hs c.values
    rw [run_some reporting s hp] at hrun ⊢
    intro w hw
    obtain ⟨hheld, hnew⟩ := Action.resolvePrompt_anew (s := s.supplied c.values) hv.closed
      ((hc.stored hp).mono hv.keeps) (Prod.ext hrun rfl) w hw
    exact ⟨hheld, hnew.mono hv.keeps⟩

end Resolution

end Promptbook

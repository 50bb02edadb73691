import Promptbook.Proofs.Report.Answers

namespace Promptbook

/-- The ledger is what the changes so far made of an empty one. -/
structure Session.Stands (s : Session) (past : List Ledger.Change) : Prop where
  ledger : s.ledger = Ledger.replay {} past
  truthful : Ledger.Truthful past

namespace Session.Stands

variable {s t : Session} {past : List Ledger.Change} {c : Ledger.Change}

theorem subscribers (hs : s.Stands past) : s.ledger.subscribers = Ledger.audience past := by
  rw [hs.ledger]
  exact hs.truthful.subscribers_replay

theorem counts (hs : s.Stands past) (k : Kind) : s.ledger.counts k = Ledger.tally k past := by
  rw [hs.ledger]
  exact Ledger.counts_replay past k

theorem stamped (hs : s.Stands past) (k : Kind) :
    s.ledger.stamped k = true ↔ 0 < Ledger.tally k past := by
  rw [hs.ledger, Ledger.stamped_replay, Ledger.counts_replay]

theorem of_ledger_eq (hs : s.Stands past) (ht : t.ledger = s.ledger) : t.Stands past :=
  ⟨ht.trans hs.ledger, hs.truthful⟩

theorem change (hs : s.Stands past) (ht : t.ledger = s.ledger.change c)
    (hc : ∀ name found, c = .left name found → (found = true ↔ name ∈ Ledger.audience past)) :
    t.Stands (past ++ [c]) := by
  refine ⟨?_, hs.truthful.snoc hc⟩
  rw [ht, hs.ledger, Ledger.replay_append]
  rfl

theorem take (hs : s.Stands past) (n : Notice) : (s.take n).Stands (past ++ [.recorded n.kind]) :=
  hs.change rfl fun _ _ he => nomatch he

end Session.Stands

theorem Session.warnings_reportLines {s : Session} {kind : Kind} {message context : Value}
    {count : Nat} (hlogs : s.settings.logs = true) (hm : (s.heap.text message).isOk) :
    ((s.reportLines kind message context count).1).filter (·.severity = .warning) =
      if 1 < count ∧ (s.heap.truth context).isOk then
        [⟨.warning, s!"This error has occurred {count} times"⟩]
      else [] := by
  rw [reportLines, if_pos hlogs]
  cases ht : s.heap.text message with
  | error cause =>
    rw [ht] at hm
    cases hm
  | ok shown =>
    cases s.heap.truth context with
    | error cause => exact (if_neg fun h => Bool.false_ne_true h.2).symm
    | ok given =>
      have hboth : (1 < count ∧ (Except.ok given : Except Fault Bool).isOk) ↔ 1 < count :=
        and_iff_left rfl
      simp only [hboth]
      by_cases hn : 1 < count
      · simp only [if_pos hn]
        cases given with
        | true => rfl
        | false => rfl
      · simp only [if_neg hn]
        cases given with
        | true => rfl
        | false => rfl

namespace Occurrence

/-- The number of a report among those of its kind since the last reset. -/
def number (o : Occurrence) : Nat :=
  Ledger.tally o.notice.kind (o.past ++ [.recorded o.notice.kind])

/-- The deliveries to which a report led, those of reports inside it apart. -/
def deliveries (o : Occurrence) : List Delivery :=
  o.answers.map (·.delivery)

/-- The report finds the ledger that the changes before it made, and is told as it should be. -/
structure Proper (o : Occurrence) : Prop where
  stands : o.before.Stands o.past
  tells : ∃ told returns, told.answers = o.answers ∧ o.before.Tells o.notice told returns

variable {o : Occurrence}

theorem Proper.number_eq (ho : o.Proper) :
    (o.before.ledger.record o.notice.kind).counts o.notice.kind = o.number :=
  (ho.stands.take o.notice).counts o.notice.kind

/-- A report is logged with a warning from the second time on, unless the truth test of its context
fails before that. -/
theorem Proper.warnings (ho : o.Proper) (hlogs : o.before.settings.logs = true)
    (hm : (o.before.heap.text o.notice.message).isOk) :
    o.notice.lines.filter (·.severity = .warning) =
      if 1 < o.number ∧ (o.before.heap.truth o.notice.context).isOk then
        [⟨.warning, s!"This error has occurred {o.number} times"⟩]
      else [] := by
  obtain ⟨told, returns, -, ht⟩ := ho.tells
  rw [ht.lines, ho.number_eq]
  exact Session.warnings_reportLines hlogs hm

/-- One delivery for each subscriber that was there when the report was counted. -/
def due (o : Occurrence) : List Delivery :=
  (Ledger.audience o.past).map fun name =>
    ⟨name, o.notice.kind, o.notice.message, o.notice.context⟩

theorem Proper.deliveries_prefix (ho : o.Proper) : o.deliveries <+: o.due := by
  obtain ⟨told, returns, htold, ht⟩ := ho.tells
  have hprefix := ht.isPrefix
  rw [htold, ho.stands.subscribers] at hprefix
  exact hprefix

theorem Proper.deliveries_eq (ho : o.Proper)
    (hover : ∀ a ∈ o.answers, o.before.overcomes a) :
    o.deliveries = if o.before.writes o.notice.message o.notice.context then o.due else [] := by
  obtain ⟨told, returns, htold, ht⟩ := ho.tells
  rw [Occurrence.deliveries, due]
  rw [← htold] at hover ⊢
  by_cases hw : o.before.writes o.notice.message o.notice.context = true
  · rw [if_pos hw, ht.deliveries (ht.returns_iff.2 ⟨hw, hover⟩), ho.stands.subscribers]
  · rw [if_neg hw, ht.silent (Bool.eq_false_iff.2 hw)]
    rfl

end Occurrence

/-- A history of a session keeps the ledger in step with its changes, and each record and each
delivery in it belongs to a report that is told as it should be. -/
structure History.Sound (h : History) (s : Session) (past : List Ledger.Change) : Prop where
  stands : (s.later h).Stands (past ++ h.changes)
  proper : ∀ o ∈ h.occurrences s past, o.Proper
  records : h.changes.filterMap Ledger.Change.kind? =
    (h.occurrences s past).map (·.notice.kind)
  deliveries : h.deliveries.Perm
    (h.answers.map (·.delivery) ++ (h.occurrences s past).flatMap Occurrence.deliveries)

namespace History

variable {s : Session} {past : List Ledger.Change} {h k done told : History} {c : Ledger.Change}
  {n : Notice} {returns : Bool}

theorem sound_nil (hs : s.Stands past) : History.nil.Sound s past where
  stands := (List.append_nil past).symm ▸ hs
  proper _ ho := nomatch ho
  records := rfl
  deliveries := List.Perm.refl []

theorem Sound.append (hh : h.Sound s past) (hk : k.Sound (s.later h) (past ++ h.changes)) :
    (h.append k).Sound s past where
  stands := by
    rw [later_append, changes_append, ← List.append_assoc]
    exact hk.stands
  proper := by
    rw [occurrences_append]
    exact List.forall_mem_append.2 ⟨hh.proper, hk.proper⟩
  records := by
    rw [occurrences_append, changes_append, List.filterMap_append, List.map_append, hh.records,
      hk.records]
  deliveries := by
    rw [occurrences_append, answers_append, deliveries_append, List.map_append, List.flatMap_append,
      List.perm_iff_count]
    -- the answers of both parts stand before the reports of both, so only the numbers agree
    intro d
    have hhd := List.perm_iff_count.1 hh.deliveries d
    have hkd := List.perm_iff_count.1 hk.deliveries d
    simp only [List.count_append] at hhd hkd ⊢
    omega

theorem sound_change (hs : s.Stands past) (hkind : c.kind? = none)
    (hc : ∀ name found, c = .left name found → (found = true ↔ name ∈ Ledger.audience past)) :
    (History.change c .nil).Sound s past where
  stands := hs.change rfl hc
  proper _ ho := nomatch ho
  records := by
    rw [changes, List.filterMap_cons_none hkind]
    rfl
  deliveries := List.Perm.refl []

theorem sound_store (hs : s.Stands past) (g : Heap) : (History.store g .nil).Sound s past where
  stands := (List.append_nil past).symm ▸ hs.of_ledger_eq rfl
  proper _ ho := nomatch ho
  records := rfl
  deliveries := List.Perm.refl []

theorem sound_answer {a : Answer} (hdone : done.Sound (s.deliver a.delivery) past)
    (hquiet : done.answers = []) : (History.answer a done .nil).Sound s past where
  stands := by
    rw [changes, changes, List.append_nil]
    exact hdone.stands.of_ledger_eq rfl
  proper := by
    rw [occurrences, occurrences, List.append_nil]
    exact hdone.proper
  records := by
    rw [changes, changes, occurrences, occurrences, List.append_nil, List.append_nil]
    exact hdone.records
  deliveries := by
    have hd := hdone.deliveries
    rw [hquiet] at hd
    rw [deliveries, deliveries, occurrences, occurrences, List.append_nil, List.append_nil]
    exact hd.cons a.delivery

theorem sound_report (hs : s.Stands past)
    (htold : told.Sound (s.take n) (past ++ [.recorded n.kind])) (ht : s.Tells n told returns) :
    (History.report n told .nil).Sound s past where
  stands := by
    have hst := htold.stands
    rw [List.append_assoc] at hst
    rw [changes, changes, List.append_nil]
    exact hst
  proper := by
    rw [occurrences, occurrences, List.append_nil]
    exact List.forall_mem_cons.2 ⟨⟨hs, told, returns, rfl, ht⟩, htold.proper⟩
  records := by
    rw [changes, changes, occurrences, occurrences, List.append_nil, List.append_nil, List.map_cons,
      ← htold.records]
    rfl
  deliveries := by
    rw [deliveries, deliveries, occurrences, occurrences, List.append_nil, List.append_nil]
    exact htold.deliveries

end History

namespace Account

variable {α β : Type} {x : Account α} {f : α → Account β}

def Quiet (x : Account α) : Prop :=
  ∀ s, (x.course s).history.answers = []

theorem Quiet.bind (hx : x.Quiet) (hf : ∀ v, (f v).Quiet) : (x >>= f).Quiet := by
  intro s
  cases ho : (x.course s).outcome with
  | error e =>
    rw [course_bind_error ho]
    exact hx s
  | ok v =>
    rw [course_bind_ok ho, follow, History.answers_append, hx, hf]
    rfl

theorem Quiet.rescue {handle : Failure → Account α} (hx : x.Quiet)
    (hh : ∀ e, (handle e).Quiet) : (rescue x handle).Quiet := by
  intro s
  simp only [Account.rescue]
  split
  · exact hx s
  · split
    · exact hx s
    · rw [follow, History.answers_append, hx, hh]
      rfl

theorem quiet_read (g : Heap → Except Fault α) : (read g).Quiet := by
  intro s
  simp only [read]
  cases g s.heap with
  | ok v => rfl
  | error cause => rfl

theorem closed_quiet : Closed Quiet where
  pure _ _ := rfl
  fail _ _ := rfl
  look _ := rfl
  joined _ _ := rfl
  cleared _ := rfl
  leave _ _ := rfl
  rework _ _ _ := rfl
  bind := Quiet.bind
  read := quiet_read
  setHeap _ _ := rfl
  rescue := Quiet.rescue

theorem quiet_reportWithin (lent : Ref → Bool) (n : Nat) (kind message context : Value) :
    (reportWithin lent n kind message context).Quiet := by
  intro s
  cases n with
  | zero => rfl
  | succ n =>
    obtain ⟨ls, told, hh, -⟩ := exists_tells lent kind message context n s
    rw [hh]
    rfl

def Sound (x : Account α) : Prop :=
  ∀ s past, s.Stands past → (x.course s).history.Sound s past

theorem Sound.bind (hx : x.Sound) (hf : ∀ v, (f v).Sound) : (x >>= f).Sound := by
  intro s past hs
  have hxs := hx s past hs
  cases ho : (x.course s).outcome with
  | error e =>
    rw [course_bind_error ho]
    exact hxs
  | ok v =>
    rw [course_bind_ok ho]
    exact hxs.append (hf v _ _ hxs.stands)

theorem Sound.rescue {handle : Failure → Account α} (hx : x.Sound)
    (hh : ∀ e, (handle e).Sound) : (rescue x handle).Sound := by
  intro s past hs
  have hxs := hx s past hs
  simp only [Account.rescue]
  split
  · exact hxs
  · split
    · exact hxs
    · exact hxs.append (hh _ _ _ hxs.stands)

theorem sound_leave (name : String) : (leave name).Sound := by
  intro s past hs
  apply History.sound_change hs rfl
  intro name' found he
  cases he
  rw [List.contains_iff_mem, hs.subscribers]

theorem sound_read (g : Heap → Except Fault α) : (read g).Sound := by
  intro s past hs
  simp only [read]
  cases g s.heap with
  | ok v => exact History.sound_nil hs
  | error cause => exact History.sound_nil hs

theorem closed_sound : Closed Sound where
  pure _ _ _ hs := History.sound_nil hs
  fail _ _ _ hs := History.sound_nil hs
  look _ _ hs := History.sound_nil hs
  joined _ _ _ hs := History.sound_change hs rfl fun _ _ he => nomatch he
  cleared _ _ hs := History.sound_change hs rfl fun _ _ he => nomatch he
  leave := sound_leave
  rework _ _ _ _ hs := History.sound_store hs _
  bind := Sound.bind
  read := sound_read
  setHeap h _ _ hs := History.sound_store hs h
  rescue := Sound.rescue

variable (lent : Ref → Bool)

theorem sound_script : ScriptClosed lent Sound :=
  { closed_sound with rework := fun _ _ _ _ hs => History.sound_store hs _ }

theorem quiet_script : ScriptClosed lent Quiet :=
  { closed_quiet with rework := fun _ _ _ => rfl }

theorem sound_deliver {tell : Value → Value → Value → Account Unit}
    (quiet : ∀ kind message context, (tell kind message context).Quiet)
    (sound : ∀ kind message context, (tell kind message context).Sound) (d : Delivery) :
    (deliver lent tell d).Sound := by
  intro s past hs
  obtain ⟨a, hd, rfl, -⟩ := exists_answer lent tell d s
  rw [hd]
  apply History.sound_answer
  · exact (sound_script lent).perform sound _ _ _ (hs.of_ledger_eq rfl)
  · exact (quiet_script lent).perform quiet _ _

theorem sound_reportWithin (n : Nat) (kind message context : Value) :
    (reportWithin lent n kind message context).Sound := by
  induction n generalizing kind message context with
  | zero => exact closed_sound.fail _
  | succ n ih =>
    intro s past hs
    obtain ⟨ls, told, hh, ht⟩ := exists_tells lent kind message context n s
    -- what was told is the history of the deliveries, which subscribers report one level deeper
    have htold : told.Sound (s.take ⟨kind.toKind, message, context, ls⟩)
        (past ++ [.recorded kind.toKind]) := by
      simp only [reportWithin] at hh
      split at hh
      · cases hh
        exact History.sound_nil (hs.take _)
      · cases hh
        have hdeliver := sound_deliver lent (quiet_reportWithin lent n) ih
        exact (sound_script lent).deliverAll hdeliver _ _ _ _ _ _ (hs.take _)
    rw [hh]
    exact History.sound_report hs htold ht

theorem sound_request (r : Request) : (request r).Sound :=
  closed_sound.request (fun lent => sound_reportWithin lent _) r

end Account

end Promptbook

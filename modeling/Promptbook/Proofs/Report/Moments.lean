import Promptbook.Proofs.Report.Runs

namespace Promptbook

namespace History

/-- A moment of a history: the session as it is, and the changes of the ledger up to it. -/
structure Moment where
  session : Session
  past : List Ledger.Change

/-- The moments of a history, those inside reports and answers among them. -/
def moments (s : Session) (past : List Ledger.Change) : History → List Moment
  | .nil => [⟨s, past⟩]
  | .change c rest =>
    ⟨s, past⟩ :: rest.moments { s with ledger := s.ledger.change c } (past ++ [c])
  | .store h rest => ⟨s, past⟩ :: rest.moments { s with heap := h } past
  | .report n told rest =>
    ⟨s, past⟩ :: (told.moments (s.take n) (past ++ [.recorded n.kind]) ++
      rest.moments ((s.take n).later told) (past ++ .recorded n.kind :: told.changes))
  | .answer a done rest =>
    ⟨s, past⟩ :: (done.moments (s.deliver a.delivery) past ++
      rest.moments (((s.deliver a.delivery).later done).jot a.lines) (past ++ done.changes))

variable {s : Session} {h k : History} {past : List Ledger.Change} {m : Moment}

theorem append_assoc {j : History} : (h.append k).append j = h.append (k.append j) := by
  induction h with
  | nil => rfl
  | change c rest ih => rw [append, append, append, ih]
  | store g rest ih => rw [append, append, append, ih]
  | report n told rest _ ih => rw [append, append, append, ih]
  | answer a done rest _ ih => rw [append, append, append, ih]

theorem first_mem_moments : ⟨s, past⟩ ∈ h.moments s past := by
  cases h with
  | nil => exact List.mem_singleton_self _
  | change c rest => exact List.mem_cons_self
  | store g rest => exact List.mem_cons_self
  | report n told rest => exact List.mem_cons_self
  | answer a done rest => exact List.mem_cons_self

theorem later_mem_moments (h k : History) (s : Session) (past : List Ledger.Change) :
    ⟨s.later h, past ++ h.changes⟩ ∈ (h.append k).moments s past := by
  induction h generalizing s past with
  | nil =>
    rw [changes, List.append_nil]
    exact first_mem_moments
  | change c rest ih =>
    have hrest := ih { s with ledger := s.ledger.change c } (past ++ [c])
    rw [List.append_assoc] at hrest
    exact List.mem_cons_of_mem _ hrest
  | store g rest ih => exact List.mem_cons_of_mem _ (ih _ _)
  | report n told rest _ ih =>
    have hrest := ih ((s.take n).later told) (past ++ .recorded n.kind :: told.changes)
    rw [List.append_assoc] at hrest
    exact List.mem_cons_of_mem _ (List.mem_append_right _ hrest)
  | answer a done rest _ ih =>
    have hrest := ih (((s.deliver a.delivery).later done).jot a.lines) (past ++ done.changes)
    rw [List.append_assoc] at hrest
    exact List.mem_cons_of_mem _ (List.mem_append_right _ hrest)

theorem prefix_of_mem_moments (hm : m ∈ h.moments s past) :
    past <+: m.past ∧ m.past <+: past ++ h.changes := by
  induction h generalizing s past with
  | nil =>
    rw [moments, List.mem_singleton] at hm
    subst hm
    exact ⟨List.prefix_refl _, List.prefix_append _ _⟩
  | change c rest ih =>
    rw [moments, List.mem_cons] at hm
    rcases hm with rfl | hm
    · exact ⟨List.prefix_refl _, List.prefix_append _ _⟩
    · obtain ⟨hfrom, hto⟩ := ih hm
      rw [List.append_assoc] at hto
      exact ⟨(List.prefix_append _ _).trans hfrom, hto⟩
  | store g rest ih =>
    rw [moments, List.mem_cons] at hm
    rcases hm with rfl | hm
    · exact ⟨List.prefix_refl _, List.prefix_append _ _⟩
    · exact ih hm
  | report n told rest iht ih =>
    rw [moments, List.mem_cons, List.mem_append] at hm
    rw [changes, ← List.cons_append, ← List.append_assoc]
    rcases hm with rfl | hm | hm
    · rw [List.append_assoc]
      exact ⟨List.prefix_refl _, List.prefix_append _ _⟩
    · obtain ⟨hfrom, hto⟩ := iht hm
      rw [List.append_assoc] at hto
      exact ⟨(List.prefix_append _ _).trans hfrom, hto.trans (List.prefix_append _ _)⟩
    · obtain ⟨hfrom, hto⟩ := ih hm
      exact ⟨(List.prefix_append _ _).trans hfrom, hto⟩
  | answer a done rest ihd ih =>
    rw [moments, List.mem_cons, List.mem_append] at hm
    rw [changes, ← List.append_assoc]
    rcases hm with rfl | hm | hm
    · rw [List.append_assoc]
      exact ⟨List.prefix_refl _, List.prefix_append _ _⟩
    · obtain ⟨hfrom, hto⟩ := ihd hm
      exact ⟨hfrom, hto.trans (List.prefix_append _ _)⟩
    · obtain ⟨hfrom, hto⟩ := ih hm
      exact ⟨(List.prefix_append _ _).trans hfrom, hto⟩

theorem pairwise_moments (h : History) (s : Session) (past : List Ledger.Change) :
    (h.moments s past).Pairwise fun m m' => m.past <+: m'.past := by
  induction h generalizing s past with
  | nil => exact List.pairwise_singleton _ _
  | change c rest ih =>
    refine List.pairwise_cons.2 ⟨fun m hm => ?_, ih _ _⟩
    exact (List.prefix_append _ _).trans (prefix_of_mem_moments hm).1
  | store g rest ih =>
    exact List.pairwise_cons.2 ⟨fun m hm => (prefix_of_mem_moments hm).1, ih _ _⟩
  | report n told rest iht ih =>
    refine List.pairwise_cons.2 ⟨fun m hm => ?_,
      List.pairwise_append.2 ⟨iht _ _, ih _ _, fun m hm m' hm' => ?_⟩⟩
    · rcases List.mem_append.1 hm with hm | hm
      · exact (List.prefix_append _ _).trans (prefix_of_mem_moments hm).1
      · exact (List.prefix_append _ _).trans (prefix_of_mem_moments hm).1
    · have hto := (prefix_of_mem_moments hm).2
      rw [List.append_assoc] at hto
      exact hto.trans (prefix_of_mem_moments hm').1
  | answer a done rest ihd ih =>
    refine List.pairwise_cons.2 ⟨fun m hm => ?_,
      List.pairwise_append.2 ⟨ihd _ _, ih _ _, fun m hm m' hm' => ?_⟩⟩
    · rcases List.mem_append.1 hm with hm | hm
      · exact (prefix_of_mem_moments hm).1
      · exact (List.prefix_append _ _).trans (prefix_of_mem_moments hm).1
    · exact (prefix_of_mem_moments hm).2.trans (prefix_of_mem_moments hm').1

/-- A property of a session and of the changes before it that every step of a history keeps. -/
structure Kept (P : Session → List Ledger.Change → Prop) : Prop where
  change : ∀ {s past} c, P s past → P { s with ledger := s.ledger.change c } (past ++ [c])
  store : ∀ {s past} g, P s past → P { s with heap := g } past
  take : ∀ {s past} n, P s past → P (s.take n) (past ++ [.recorded n.kind])
  deliver : ∀ {s past} d, P s past → P (s.deliver d) past
  jot : ∀ {s past} ls, P s past → P (s.jot ls) past

namespace Kept

variable {P : Session → List Ledger.Change → Prop} (hk : Kept P)
include hk

theorem later (hs : P s past) : P (s.later h) (past ++ h.changes) := by
  induction h generalizing s past with
  | nil => rwa [changes, List.append_nil]
  | change c rest ih =>
    have hrest := ih (hk.change c hs)
    rwa [List.append_assoc] at hrest
  | store g rest ih => exact ih (hk.store g hs)
  | report n told rest iht ih =>
    have hrest := ih (iht (hk.take n hs))
    rwa [List.append_assoc, List.append_assoc] at hrest
  | answer a done rest ihd ih =>
    have hrest := ih (hk.jot a.lines (ihd (hk.deliver a.delivery hs)))
    rwa [List.append_assoc] at hrest

theorem of_mem_moments (hs : P s past) (hm : m ∈ h.moments s past) : P m.session m.past := by
  induction h generalizing s past with
  | nil =>
    rw [moments, List.mem_singleton] at hm
    subst hm
    exact hs
  | change c rest ih =>
    rw [moments, List.mem_cons] at hm
    rcases hm with rfl | hm
    · exact hs
    · exact ih (hk.change c hs) hm
  | store g rest ih =>
    rw [moments, List.mem_cons] at hm
    rcases hm with rfl | hm
    · exact hs
    · exact ih (hk.store g hs) hm
  | report n told rest iht ih =>
    rw [moments, List.mem_cons, List.mem_append] at hm
    rcases hm with rfl | hm | hm
    · exact hs
    · exact iht (hk.take n hs) hm
    · apply ih _ hm
      have htold := hk.later (h := told) (hk.take n hs)
      rwa [List.append_assoc] at htold
  | answer a done rest ihd ih =>
    rw [moments, List.mem_cons, List.mem_append] at hm
    rcases hm with rfl | hm | hm
    · exact hs
    · exact ihd (hk.deliver a.delivery hs) hm
    · exact ih (hk.jot a.lines (hk.later (hk.deliver a.delivery hs))) hm

end Kept

theorem settings_of_mem_moments (hm : m ∈ h.moments s past) :
    m.session.settings = s.settings := by
  have hkept : Kept fun t _ => t.settings = s.settings :=
    { change := fun _ ht => ht
      store := fun _ ht => ht
      take := fun _ ht => ht
      deliver := fun _ ht => ht
      jot := fun _ ht => ht }
  exact hkept.of_mem_moments rfl hm

/-- At each moment the ledger is what the changes up to it made of an empty one. -/
theorem ledger_of_mem_moments (hs : s.ledger = Ledger.replay {} past) (hm : m ∈ h.moments s past) :
    m.session.ledger = Ledger.replay {} m.past := by
  have hkept : Kept fun t done => t.ledger = Ledger.replay {} done :=
    { change := fun c ht => by
        rw [Ledger.replay_append, ← ht]
        rfl
      store := fun _ ht => ht
      take := fun n ht => by
        rw [Ledger.replay_append, ← ht]
        rfl
      deliver := fun _ ht => ht
      jot := fun _ ht => ht }
  exact hkept.of_mem_moments hs hm

end History

namespace Session

def moments (s : Session) (requests : List Request) : List History.Moment :=
  (s.chronicle requests).moments s []

theorem chronicle_append (s : Session) (requests more : List Request) :
    s.chronicle (requests ++ more) =
      (s.chronicle requests).append ((s.served requests).chronicle more) := by
  induction requests generalizing s with
  | nil => rfl
  | cons r requests ih =>
    have hserved : s.served (r :: requests) =
        (s.later ((Account.request r).course s).history).served requests := by
      rw [served_eq, chronicle, History.later_append, ← served_eq]
    rw [List.cons_append, chronicle, chronicle, ih, hserved, History.append_assoc]

theorem served_mem_moments (s : Session) (requests : List Request) (n : Nat) :
    ⟨s.served (requests.take n), (s.chronicle (requests.take n)).changes⟩ ∈
      s.moments requests := by
  have hmem := History.later_mem_moments (s.chronicle (requests.take n))
    ((s.served (requests.take n)).chronicle (requests.drop n)) s []
  rw [← chronicle_append, List.take_append_drop, List.nil_append, ← served_eq] at hmem
  exact hmem

theorem stands_of_mem_moments {s : Session} (hs : s.ledger = {}) {requests : List Request}
    {m : History.Moment} (hm : m ∈ s.moments requests) : m.session.Stands m.past := by
  have hsound := sound_chronicle ⟨hs, Ledger.truthful_nil⟩ requests
  obtain ⟨rest, hrest⟩ := (History.prefix_of_mem_moments hm).2
  have htruthful : Ledger.Truthful (m.past ++ rest) := hrest ▸ hsound.stands.truthful
  exact ⟨History.ledger_of_mem_moments hs hm, htruthful.of_append⟩

end Session

end Promptbook

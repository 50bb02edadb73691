import Promptbook.Proofs.Ledger.Changes
import Promptbook.Session

namespace Promptbook

/-- A report as it is taken up: what it is about, and the lines logged before anyone is told. -/
structure Notice where
  kind : Kind
  message : Value
  context : Value
  lines : List LogLine

/-- How a subscriber took a delivery: the failure it ended with, if any, the lines logged about that,
and the containers as it left them. -/
structure Answer where
  delivery : Delivery
  failure : Option Failure
  lines : List LogLine
  left : Heap

/-- What happens one after the other. A report holds what telling the subscribers led to, and an
answer holds what the subscriber did. -/
inductive History
  | nil
  | change (c : Ledger.Change) (rest : History)
  | store (h : Heap) (rest : History)
  | report (n : Notice) (told rest : History)
  | answer (a : Answer) (done rest : History)

namespace Session

def take (s : Session) (n : Notice) : Session :=
  { s with ledger := s.ledger.record n.kind, lines := s.lines ++ n.lines }

def deliver (s : Session) (d : Delivery) : Session :=
  { s with deliveries := s.deliveries ++ [d] }

def jot (s : Session) (ls : List LogLine) : Session :=
  { s with lines := s.lines ++ ls }

def later (s : Session) : History → Session
  | .nil => s
  | .change c rest => later { s with ledger := s.ledger.change c } rest
  | .store h rest => later { s with heap := h } rest
  | .report n told rest => later (later (s.take n) told) rest
  | .answer a done rest => later ((later (s.deliver a.delivery) done).jot a.lines) rest

end Session

namespace History

def append : History → History → History
  | .nil, k => k
  | .change c rest, k => .change c (rest.append k)
  | .store h rest, k => .store h (rest.append k)
  | .report n told rest, k => .report n told (rest.append k)
  | .answer a done rest, k => .answer a done (rest.append k)

/-- The changes of the ledger, those of reports inside reports among them. -/
def changes : History → List Ledger.Change
  | .nil => []
  | .change c rest => c :: rest.changes
  | .store _ rest => rest.changes
  | .report n told rest => .recorded n.kind :: (told.changes ++ rest.changes)
  | .answer _ done rest => done.changes ++ rest.changes

def answers : History → List Answer
  | .nil => []
  | .change _ rest => rest.answers
  | .store _ rest => rest.answers
  | .report _ _ rest => rest.answers
  | .answer a _ rest => a :: rest.answers

def deliveries : History → List Delivery
  | .nil => []
  | .change _ rest => rest.deliveries
  | .store _ rest => rest.deliveries
  | .report _ told rest => told.deliveries ++ rest.deliveries
  | .answer a done rest => a.delivery :: (done.deliveries ++ rest.deliveries)

end History

/-- A report in a history: the changes of the ledger before it, the session in which it is made, how
it is taken up, and the answers to it. -/
structure Occurrence where
  past : List Ledger.Change
  before : Session
  notice : Notice
  answers : List Answer

namespace History

/-- The reports of a history that begins in a session, after some changes of the ledger. -/
def occurrences (s : Session) (past : List Ledger.Change) : History → List Occurrence
  | .nil => []
  | .change c rest => rest.occurrences { s with ledger := s.ledger.change c } (past ++ [c])
  | .store h rest => rest.occurrences { s with heap := h } past
  | .report n told rest =>
    ⟨past, s, n, told.answers⟩ ::
      (told.occurrences (s.take n) (past ++ [.recorded n.kind]) ++
        rest.occurrences ((s.take n).later told) (past ++ .recorded n.kind :: told.changes))
  | .answer a done rest =>
    done.occurrences (s.deliver a.delivery) past ++
      rest.occurrences (((s.deliver a.delivery).later done).jot a.lines) (past ++ done.changes)

variable {s : Session} {h k : History} {past : List Ledger.Change}

theorem changes_append : (h.append k).changes = h.changes ++ k.changes := by
  induction h with
  | nil => rfl
  | change c rest ih => rw [append, changes, ih, changes, List.cons_append]
  | store g rest ih => rw [append, changes, ih, changes]
  | report n told rest _ ih =>
    rw [append, changes, ih, changes, List.cons_append, List.append_assoc]
  | answer a done rest _ ih => rw [append, changes, ih, changes, List.append_assoc]

theorem answers_append : (h.append k).answers = h.answers ++ k.answers := by
  induction h with
  | nil => rfl
  | change c rest ih => exact ih
  | store g rest ih => exact ih
  | report n told rest _ ih => exact ih
  | answer a done rest _ ih => exact congrArg (a :: ·) ih

theorem deliveries_append : (h.append k).deliveries = h.deliveries ++ k.deliveries := by
  induction h with
  | nil => rfl
  | change c rest ih => exact ih
  | store g rest ih => exact ih
  | report n told rest _ ih => rw [append, deliveries, ih, deliveries, List.append_assoc]
  | answer a done rest _ ih =>
    rw [append, deliveries, ih, deliveries, List.cons_append, List.append_assoc]

theorem answers_sublist (h : History) : (h.answers.map (·.delivery)).Sublist h.deliveries := by
  induction h with
  | nil => exact List.Sublist.refl []
  | change c rest ih => exact ih
  | store g rest ih => exact ih
  | report n told rest _ ih => exact ih.trans (List.sublist_append_right _ _)
  | answer a done rest _ ih => exact (ih.trans (List.sublist_append_right _ _)).cons_cons _

theorem later_append : s.later (h.append k) = (s.later h).later k := by
  induction h generalizing s with
  | nil => rfl
  | change c rest ih => exact ih
  | store g rest ih => exact ih
  | report n told rest _ ih => exact ih
  | answer a done rest _ ih => exact ih

theorem occurrences_append : (h.append k).occurrences s past =
    h.occurrences s past ++ k.occurrences (s.later h) (past ++ h.changes) := by
  induction h generalizing s past with
  | nil =>
    rw [changes, List.append_nil]
    rfl
  | change c rest ih =>
    simp only [append, occurrences, ih, changes, List.append_assoc]
    rfl
  | store g rest ih => exact ih
  | report n told rest _ ih =>
    simp only [append, occurrences, ih, changes, List.append_assoc, List.cons_append]
    rfl
  | answer a done rest _ ih =>
    simp only [append, occurrences, ih, changes, List.append_assoc]
    rfl

end History

namespace Session

variable {s : Session} {h : History}

@[simp] theorem jot_nil (s : Session) : s.jot [] = s := by
  rw [jot, List.append_nil]

theorem jot_jot (s : Session) (ls ms : List LogLine) : (s.jot ls).jot ms = s.jot (ls ++ ms) := by
  rw [jot, jot, jot, List.append_assoc]

theorem deliveries_later (s : Session) (h : History) :
    (s.later h).deliveries = s.deliveries ++ h.deliveries := by
  induction h generalizing s with
  | nil => exact (List.append_nil _).symm
  | change c rest ih => exact ih _
  | store g rest ih => exact ih _
  | report n told rest iht ih =>
    rw [later, ih, iht, History.deliveries, List.append_assoc]
    rfl
  | answer a done rest ihd ih =>
    rw [later, ih, jot, ihd, History.deliveries, deliver, List.append_assoc, List.append_assoc,
      List.singleton_append]

@[simp] theorem settings_later (s : Session) (h : History) : (s.later h).settings = s.settings := by
  induction h generalizing s with
  | nil => rfl
  | change c rest ih => exact ih _
  | store g rest ih => exact ih _
  | report n told rest iht ih => rw [later, ih, iht]; rfl
  | answer a done rest ihd ih => rw [later, ih, jot, ihd]; rfl

@[simp] theorem respond_later (s : Session) (h : History) : (s.later h).respond = s.respond := by
  induction h generalizing s with
  | nil => rfl
  | change c rest ih => exact ih _
  | store g rest ih => exact ih _
  | report n told rest iht ih => rw [later, ih, iht]; rfl
  | answer a done rest ihd ih => rw [later, ih, jot, ihd]; rfl

theorem lines_later (s : Session) (h : History) : s.lines <+: (s.later h).lines := by
  induction h generalizing s with
  | nil => exact List.prefix_refl _
  | change c rest ih => exact ih { s with ledger := s.ledger.change c }
  | store g rest ih => exact ih { s with heap := g }
  | report n told rest iht ih =>
    exact ((List.prefix_append _ _).trans (iht (s.take n))).trans (ih _)
  | answer a done rest ihd ih =>
    have hdone := ihd (s.deliver a.delivery)
    have hrest := ih (((s.deliver a.delivery).later done).jot a.lines)
    exact (hdone.trans (List.prefix_append _ a.lines)).trans hrest

end Session

namespace History

variable {s : Session} {h : History} {past : List Ledger.Change} {o : Occurrence}

theorem settings_of_mem_occurrences (ho : o ∈ h.occurrences s past) :
    o.before.settings = s.settings := by
  induction h generalizing s past with
  | nil => cases ho
  | change c rest ih =>
    have hrest := ih ho
    exact hrest
  | store g rest ih =>
    have hrest := ih ho
    exact hrest
  | report n told rest iht ih =>
    rw [occurrences, List.mem_cons, List.mem_append] at ho
    rcases ho with rfl | ho | ho
    · rfl
    · have htold := iht ho
      exact htold
    · exact (ih ho).trans (Session.settings_later _ told)
  | answer a done rest ihd ih =>
    rw [occurrences, List.mem_append] at ho
    rcases ho with ho | ho
    · have hdone := ihd ho
      exact hdone
    · exact (ih ho).trans (Session.settings_later _ done)

theorem past_prefix (ho : o ∈ h.occurrences s past) :
    o.past ++ [.recorded o.notice.kind] <+: past ++ h.changes := by
  induction h generalizing s past with
  | nil => cases ho
  | change c rest ih =>
    rw [changes, List.append_cons past c]
    exact ih ho
  | store g rest ih => exact ih ho
  | report n told rest iht ih =>
    rw [occurrences, List.mem_cons, List.mem_append] at ho
    rw [changes, List.append_cons past (.recorded n.kind), ← List.append_assoc]
    rcases ho with rfl | ho | ho
    · exact (List.prefix_append _ _).trans (List.prefix_append _ _)
    · exact (iht ho).trans (List.prefix_append _ _)
    · have hrest := ih ho
      rw [List.append_cons past (.recorded n.kind)] at hrest
      exact hrest
  | answer a done rest ihd ih =>
    rw [occurrences, List.mem_append] at ho
    rw [changes, ← List.append_assoc]
    rcases ho with ho | ho
    · exact (ihd ho).trans (List.prefix_append _ _)
    · exact ih ho

theorem lines_prefix (ho : o ∈ h.occurrences s past) :
    o.before.lines ++ o.notice.lines <+: (s.later h).lines := by
  induction h generalizing s past with
  | nil => cases ho
  | change c rest ih => exact ih ho
  | store g rest ih => exact ih ho
  | report n told rest iht ih =>
    rw [occurrences, List.mem_cons, List.mem_append] at ho
    rcases ho with rfl | ho | ho
    · exact (Session.lines_later (s.take n) told).trans (Session.lines_later _ rest)
    · exact (iht ho).trans (Session.lines_later _ rest)
    · exact ih ho
  | answer a done rest ihd ih =>
    rw [occurrences, List.mem_append] at ho
    rcases ho with ho | ho
    · have hrest := Session.lines_later (((s.deliver a.delivery).later done).jot a.lines) rest
      exact ((ihd ho).trans (List.prefix_append _ a.lines)).trans hrest
    · exact ih ho

end History

end Promptbook

import Promptbook.Kind

namespace Promptbook

/-- The counts of all kinds, whether a time of last occurrence is known, and the subscribers in the
order of their registration. -/
structure Ledger where
  counts : Kind → Nat := fun _ => 0
  stamped : Kind → Bool := fun _ => false
  subscribers : List String := []
  deriving Inhabited

namespace Ledger

def record (l : Ledger) (k : Kind) : Ledger :=
  { l with
    counts := fun j => if j = k then l.counts j + 1 else l.counts j
    stamped := fun j => j = k || l.stamped j }

def reset (l : Ledger) : Ledger :=
  { l with counts := fun _ => 0, stamped := fun _ => false }

def subscribe (l : Ledger) (name : String) : Ledger :=
  { l with subscribers := l.subscribers ++ [name] }

def unsubscribe (l : Ledger) (name : String) : Ledger :=
  { l with subscribers := l.subscribers.erase name }

@[simp] theorem counts_record_self (l : Ledger) (k : Kind) :
    (l.record k).counts k = l.counts k + 1 := by
  simp [record]

@[simp] theorem counts_record_of_ne (l : Ledger) {j k : Kind} (h : j ≠ k) :
    (l.record k).counts j = l.counts j := by
  simp [record, h]

/-- Of each kind, how often it occurred and whether a time of last occurrence is known. -/
def stats (l : Ledger) : List (Kind × Nat × Bool) :=
  Kind.all.map fun k => (k, l.counts k, l.stamped k)

def atLeast (l : Ledger) (n : Nat) : List Kind :=
  Kind.all.filter fun k => n ≤ l.counts k

end Ledger

/-- Whether the system can recover from errors, and what speaks against it. -/
structure Assessment where
  issues : List String
  deriving DecidableEq, Repr, Inhabited

namespace Assessment

def canRecover (a : Assessment) : Bool :=
  a.issues.isEmpty

/-- Looks for kinds that occurred often and for the lack of subscribers. -/
def ofLedger (l : Ledger) (critical : Nat) : Assessment :=
  let frequent := l.atLeast critical
  { issues :=
      (if frequent.isEmpty then []
        else ["Frequent errors detected: " ++ ", ".intercalate (frequent.map Kind.name)]) ++
      (if l.subscribers.isEmpty then
        ["No callbacks registered for error notifications - errors may not be properly handled"]
        else []) }

end Assessment

end Promptbook

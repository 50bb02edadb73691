import Mathlib.Data.List.Count
import Mathlib.Data.List.DropRight
import Promptbook.Ledger.Basic

namespace Promptbook.Ledger

/-- A change of a ledger. A subscriber that leaves may not have been there. -/
inductive Change
  | recorded (k : Kind)
  | cleared
  | joined (name : String)
  | left (name : String) (found : Bool)
  deriving DecidableEq, Repr

def Change.kind? : Change → Option Kind
  | .recorded k => some k
  | _ => none

def change (l : Ledger) : Change → Ledger
  | .recorded k => l.record k
  | .cleared => l.reset
  | .joined name => l.subscribe name
  | .left name _ => l.unsubscribe name

def replay (l : Ledger) (cs : List Change) : Ledger :=
  cs.foldl change l

variable {l : Ledger} {cs ds : List Change} {c : Change} {k : Kind} {name : String} {found : Bool}

@[simp] theorem replay_nil : l.replay [] = l := rfl

@[simp] theorem replay_cons : l.replay (c :: cs) = (l.change c).replay cs := rfl

@[simp] theorem replay_append : l.replay (cs ++ ds) = (l.replay cs).replay ds :=
  List.foldl_append

def tally (k : Kind) (cs : List Change) : Nat :=
  (cs.rtakeWhile (· ≠ .cleared)).count (.recorded k)

theorem tally_append_cleared : tally k (cs ++ [.cleared]) = 0 := by
  rw [tally, List.rtakeWhile_concat_neg _ _ _ (by simp)]
  rfl

theorem tally_append (hc : c ≠ .cleared) :
    tally k (cs ++ [c]) = tally k cs + if c = .recorded k then 1 else 0 := by
  rw [tally, List.rtakeWhile_concat_pos _ _ _ (by simpa using hc), List.count_append,
    List.count_singleton, tally]
  simp

theorem tally_le_append (hds : .cleared ∉ ds) : tally k cs ≤ tally k (cs ++ ds) := by
  induction ds using List.reverseRecOn with
  | nil => rw [List.append_nil]
  | append_singleton ds d ih =>
    rw [List.mem_append, not_or, List.mem_singleton] at hds
    rw [← List.append_assoc, tally_append (Ne.symm hds.2)]
    exact Nat.le_add_right_of_le (ih hds.1)

theorem counts_replay (cs : List Change) (k : Kind) : (replay {} cs).counts k = tally k cs := by
  induction cs using List.reverseRecOn with
  | nil => rfl
  | append_singleton cs c ih =>
    rw [replay_append]
    cases c with
    | cleared => exact tally_append_cleared.symm
    | recorded j =>
      rw [tally_append (by simp), ← ih]
      by_cases hj : j = k
      · subst hj
        simp [change]
      · simp [change, hj, Ne.symm hj]
    | joined name =>
      rw [tally_append (by simp), ← ih]
      rfl
    | left name found =>
      rw [tally_append (by simp), ← ih]
      rfl

theorem stamped_replay (cs : List Change) (k : Kind) :
    (replay {} cs).stamped k = true ↔ 0 < (replay {} cs).counts k := by
  induction cs using List.reverseRecOn with
  | nil => simp
  | append_singleton cs c ih =>
    rw [replay_append]
    cases c with
    | cleared => simp [change, reset]
    | recorded j =>
      by_cases hj : k = j
      · subst hj
        simp [change, record]
      · simpa [change, record, hj] using ih
    | joined name => exact ih
    | left name found => exact ih

def arrivals (cs : List Change) : List String :=
  cs.filterMap fun
    | .joined name => some name
    | _ => none

/-- Those that left and were there, in the order in which they did. -/
def departures (cs : List Change) : List String :=
  cs.filterMap fun
    | .left name true => some name
    | _ => none

/-- Those that joined, less the earliest entry for each one that left. -/
def audience (cs : List Change) : List String :=
  (arrivals cs).diff (departures cs)

/-- Each change by which a subscriber leaves says whether it was in the audience. -/
def Truthful (cs : List Change) : Prop :=
  ∀ past name found rest, cs = past ++ .left name found :: rest →
    (found = true ↔ name ∈ audience past)

theorem truthful_nil : Truthful [] := by
  intro past name found rest he
  simp at he

theorem Truthful.of_append (h : Truthful (cs ++ ds)) : Truthful cs := by
  intro past name found rest he
  apply h past name found (rest ++ ds)
  rw [he, List.append_assoc, List.cons_append]

theorem Truthful.snoc (h : Truthful cs)
    (hc : ∀ name found, c = .left name found → (found = true ↔ name ∈ audience cs)) :
    Truthful (cs ++ [c]) := by
  intro past name found rest he
  rcases List.eq_nil_or_concat rest with rfl | ⟨rest, d, rfl⟩
  · obtain ⟨rfl, heq⟩ := List.append_inj' he rfl
    exact hc name found (List.cons.inj heq).1
  · rw [List.concat_eq_append, ← List.cons_append, ← List.append_assoc] at he
    obtain ⟨rfl, -⟩ := List.append_inj' he rfl
    exact h past name found rest rfl

theorem Truthful.last (h : Truthful (cs ++ [.left name found])) :
    found = true ↔ name ∈ audience cs :=
  h cs name found [] rfl

theorem arrivals_append : arrivals (cs ++ ds) = arrivals cs ++ arrivals ds :=
  List.filterMap_append

theorem departures_append : departures (cs ++ ds) = departures cs ++ departures ds :=
  List.filterMap_append

theorem Truthful.count_le (h : Truthful cs) (name : String) :
    (departures cs).count name ≤ (arrivals cs).count name := by
  induction cs using List.reverseRecOn with
  | nil => exact Nat.le_refl _
  | append_singleton cs c ih =>
    have hle := ih h.of_append
    rw [arrivals_append, departures_append, List.count_append, List.count_append]
    cases c with
    | recorded k => exact hle
    | cleared => exact hle
    | joined other => exact Nat.le_add_right_of_le hle
    | left other found =>
      cases found with
      | false => exact hle
      | true =>
        have hmem := h.last.1 rfl
        rw [audience, ← List.count_pos_iff, List.count_diff] at hmem
        by_cases hname : other = name
        · subst hname
          simp only [departures, arrivals, List.filterMap_cons, List.filterMap_nil,
            List.count_singleton_self, List.count_nil] at hmem ⊢
          omega
        · simpa [departures, arrivals, hname] using hle

theorem append_diff_of_count_le {xs ys zs : List String} (h : ∀ a, ys.count a ≤ xs.count a) :
    (xs ++ zs).diff ys = xs.diff ys ++ zs := by
  induction ys generalizing xs with
  | nil => rfl
  | cons y ys ih =>
    have hy : y ∈ xs := by
      rw [← List.count_pos_iff]
      have := h y
      rw [List.count_cons_self] at this
      omega
    rw [List.diff_cons, List.diff_cons, List.erase_append_left _ hy]
    apply ih
    intro a
    have := h a
    rw [List.count_cons] at this
    rw [List.count_erase]
    omega

theorem Truthful.audience_append (h : Truthful cs) (c : Change) :
    audience (cs ++ [c]) = match c with
      | .joined name => audience cs ++ [name]
      | .left name true => (audience cs).erase name
      | _ => audience cs := by
  rw [audience, arrivals_append, departures_append]
  cases c with
  | recorded k => simp [arrivals, departures, audience]
  | cleared => simp [arrivals, departures, audience]
  | joined name =>
    have hnone : departures [.joined name] = [] := rfl
    rw [hnone, List.append_nil]
    exact append_diff_of_count_le h.count_le
  | left name found => cases found <;> simp [arrivals, departures, audience]

theorem Truthful.subscribers_replay (h : Truthful cs) :
    (replay {} cs).subscribers = audience cs := by
  induction cs using List.reverseRecOn with
  | nil => rfl
  | append_singleton cs c ih =>
    have hcs := ih h.of_append
    rw [replay_append, h.of_append.audience_append]
    cases c with
    | recorded k => exact hcs
    | cleared => exact hcs
    | joined name => exact congrArg (· ++ [name]) hcs
    | left name found =>
      simp only [replay_cons, replay_nil, change, unsubscribe, hcs]
      cases found with
      | false =>
        have hnot : name ∉ audience cs := fun hm => Bool.false_ne_true (h.last.2 hm)
        exact List.erase_of_not_mem hnot
      | true => rfl

end Promptbook.Ledger

namespace Promptbook

inductive SettingStep
  | field (name : String)
  | item (index : Nat)
  deriving DecidableEq, Repr

inductive Complaint
  | notInteger
  | unreadInteger
  | longInteger
  | fractional
  | notFinite
  | notBool
  | unreadBool
  | notText
  | badUtf8
  | notList
  | unknownName
  | notRecord
  | notPositive
  | thresholdsReversed
  deriving DecidableEq, Repr

namespace Complaint

def type : Complaint → String
  | notInteger => "int_type"
  | unreadInteger => "int_parsing"
  | longInteger => "int_parsing_size"
  | fractional => "int_from_float"
  | notFinite => "finite_number"
  | notBool => "bool_type"
  | unreadBool => "bool_parsing"
  | notText => "string_type"
  | badUtf8 => "string_unicode"
  | notList => "list_type"
  | unknownName => "literal_error"
  | notRecord => "model_type"
  | notPositive | thresholdsReversed => "value_error"

def message? : Complaint → Option String
  | notPositive => some "Value error, Value must be positive"
  | thresholdsReversed => some "Value error, critical_threshold must be >= frequent_threshold"
  | _ => none

end Complaint

structure SettingFlaw where
  path : List SettingStep
  complaint : Complaint
  deriving DecidableEq, Repr

/-- A value read from settings, with the flaws met on the way. The value counts only if there are
none. -/
structure Checked (α : Type) where
  flaws : List SettingFlaw
  value : α
  deriving Repr

namespace Checked

variable {α : Type}

def toExcept (c : Checked α) : Except (List SettingFlaw) α :=
  if c.flaws.isEmpty then .ok c.value else .error c.flaws

theorem toExcept_eq_ok {c : Checked α} {x : α} (h : c.toExcept = .ok x) :
    c.flaws = [] ∧ c.value = x := by
  unfold toExcept at h
  split at h
  · rename_i he
    exact ⟨List.isEmpty_iff.1 he, Except.ok.inj h⟩
  · cases h

def within (step : SettingStep) (c : Checked α) : Checked α :=
  { c with flaws := c.flaws.map fun f => { f with path := step :: f.path } }

def ofExcept (standIn : α) : Except Complaint α → Checked α
  | .ok x => ⟨[], x⟩
  | .error c => ⟨[⟨[], c⟩], standIn⟩

end Checked

end Promptbook

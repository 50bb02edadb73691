namespace Promptbook

structure Verdict where
  errors : List String
  warnings : List String
  deriving DecidableEq, Repr, Inhabited

namespace Verdict

def clean : Verdict := ⟨[], []⟩

def accepts (v : Verdict) : Bool :=
  v.errors.isEmpty

def error (message : String) : Verdict := ⟨[message], []⟩

def warning (message : String) : Verdict := ⟨[], [message]⟩

def errorIf (condition : Bool) (message : String) : Verdict :=
  if condition then error message else clean

def warnIf (condition : Bool) (message : String) : Verdict :=
  if condition then warning message else clean

/-- Two verdicts together, the findings of the first before those of the second. -/
instance : Append Verdict :=
  ⟨fun v w => ⟨v.errors ++ w.errors, v.warnings ++ w.warnings⟩⟩

@[simp] theorem errors_append (v w : Verdict) : (v ++ w).errors = v.errors ++ w.errors := rfl

@[simp] theorem warnings_append (v w : Verdict) : (v ++ w).warnings = v.warnings ++ w.warnings :=
  rfl

@[simp] theorem errors_clean : clean.errors = [] := rfl

@[simp] theorem errors_error (m : String) : (error m).errors = [m] := rfl

@[simp] theorem errors_warning (m : String) : (warning m).errors = [] := rfl

@[simp] theorem errors_errorIf (c : Bool) (m : String) :
    (errorIf c m).errors = if c then [m] else [] := by
  cases c <;> rfl

@[simp] theorem errors_warnIf (c : Bool) (m : String) : (warnIf c m).errors = [] := by
  cases c <;> rfl

def join (vs : List Verdict) : Verdict :=
  vs.foldr (· ++ ·) clean

@[simp] theorem errors_join (vs : List Verdict) : (join vs).errors = vs.flatMap errors := by
  induction vs with
  | nil => rfl
  | cons v vs ih => simpa [join] using ih

end Verdict

end Promptbook

import Promptbook.Files.Document
import Promptbook.Settings.Flaw
import Promptbook.Settings.Override
import Promptbook.Settings.Reading
import Promptbook.Text.Basic

namespace Promptbook.Settings

/-- The record that a text holds; an empty record if the text holds nothing. -/
def documentRecord (h : Heap) (p : FilePath) (format : Format) (s : List Char) :
    Except Fault (Value × Heap) :=
  if format = .json && s.all Text.isBlank then .ok (h.store (.dict []))
  else
    match format.read h s with
    | .error (.malformed message) =>
      .error (.invalid s!"Invalid {format.name} in config file: {message}")
    | .error (.fault cause) => .error cause
    | .ok (.null, h) => .ok (h.store (.dict []))
    | .ok (v, h) =>
      if h.isDict v then .ok (v, h)
      else .error (.invalid s!"Config file must contain a mapping at the top level: {p.text}")

/-- The record in a file; an empty record if there is no such file. -/
def fileRecord (t : FileTree) (p : FilePath) (h : Heap) : Except Fault (Value × Heap) := do
  let p ← p.expand t.home
  if !(← t.has p) then return h.store (.dict [])
  match p.format? with
  | none =>
    throw (.invalid <|
      s!"Config file must have .yaml, .yml, or .json extension, got: {p.suffix}\n" ++
        s!"File: {p.text}")
  | some format => documentRecord h p format (← t.text p)

inductive Refusal
  | fault (cause : Fault)
  | flawed (flaws : List SettingFlaw)
  | misnamed (cause : Fault)
  deriving DecidableEq, Repr

def refusalText (path : Option String) (details : String) : String :=
  let shown := path.getD "None"
  s!"Configuration validation failed: {details}\n" ++
    s!"Please check your configuration file at {shown}"

def ofRecord (h : Heap) (v : Value) : Except Refusal Config :=
  let record := (h.dict? v).getD []
  match checkNames record with
  | .error cause => .error (.misnamed cause)
  | .ok () => (config h record).toExcept.mapError .flawed

def overriddenRecord (t : FileTree) (path : Option FilePath) (overrides : Value) (h : Heap) :
    Except Fault (Value × Heap) := do
  let (v, h) ← match path with
    | some p => fileRecord t p h
    | none => pure (h.store (.dict []))
  let h ← override h v overrides
  return (v, h)

def load (t : FileTree) (path : Option FilePath) (overrides : Value) (h : Heap) :
    Except Refusal Config :=
  match overriddenRecord t path overrides h with
  | .error cause => .error (.fault cause)
  | .ok (v, h) => ofRecord h v

end Promptbook.Settings

import Promptbook.Catalog.Definition
import Promptbook.Guard

namespace Promptbook

/-- What loading definitions gave: the prompts, and the texts of errors. -/
structure Loaded where
  prompts : List Prompt := []
  errors : List String := []
  deriving DecidableEq, Repr

def Loaded.toValue (l : Loaded) (h : Heap) : Value × Heap :=
  let (ids, h) := h.store (.list (l.prompts.map Prompt.id))
  let (errors, h) := h.textList l.errors
  h.record [("loaded", .int l.prompts.length), ("prompt_ids", ids), ("errors", errors)]

namespace Loaded

def add (l : Loaded) : Except String Prompt → Loaded
  | .ok p => { l with prompts := p :: l.prompts }
  | .error message => { l with errors := message :: l.errors }

end Loaded

namespace Action

def loadReported (t : FileTree) (settings : ReviewSettings) (p : FilePath) :
    Action (Except String Prompt) := do
  let context ← make fun h => h.record [("prompt_id", .text p.stem), ("source", .text p.text)]
  let g ← attempt (loadFile t settings p) (.kind .templateParse) context
  match g.value, g.error with
  | some q, _ => return .ok q
  | none, some e => return .error (← read e.text)
  | none, none => return .error "None"

def loadLogged (t : FileTree) (settings : ReviewSettings) (p : FilePath) :
    Action (Except String Prompt) :=
  rescue (do return .ok (← loadFile t settings p)) fun e => do
    let shown ← read e.text
    log .warning s!"Skipping prompt definition {p.text}: {shown}"
    return .error (if shown.isEmpty then s!"{p.text}: {e.className}" else shown)

def loadEach (load : FilePath → Action (Except String Prompt)) : List FilePath → Action Loaded
  | [] => return {}
  | p :: ps => do
    let r ← load p
    let rest ← loadEach load ps
    return rest.add r

def loadDirectory (reporting : Bool) (t : FileTree) (settings : ReviewSettings)
    (directory : FilePath) : Action Loaded := do
  let directory ← read fun _ => directory.expand t.home
  if ← read fun _ => t.hasDirectory directory then
    let load := if reporting then loadReported t settings else loadLogged t settings
    loadEach load (Definition.paths t directory)
  else
    log .debug s!"Prompt directory does not exist: {directory.text}"
    return {}

end Action

end Promptbook

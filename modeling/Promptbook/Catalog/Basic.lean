import Promptbook.Catalog.Load
import Promptbook.Registry.Access

namespace Promptbook

/-- Directories of definitions, with the settings under which these are reviewed. -/
structure Catalog where
  directories : List FilePath
  settings : ReviewSettings := {}
  deriving DecidableEq, Repr

namespace Catalog

def ofPaths (home : FilePath) (settings : ReviewSettings) (paths : List FilePath) :
    Except Fault Catalog := do
  let directories ← Heap.eachOk (fun p : FilePath => p.expand home) paths
  return { directories, settings }

/-- The paths under which a definition with a given name is looked for, in this order. -/
def candidates (c : Catalog) (name : String) : List FilePath :=
  c.directories.flatMap fun directory =>
    Format.suffixes.map fun suffix => directory.join (.ofText (name ++ suffix))

def find? (c : Catalog) (t : FileTree) (name : String) : Except Fault (Option FilePath) :=
  Heap.findOk t.has (c.candidates name)

/-- The paths of all definitions in one directory; there are none if it is no directory. -/
def pathsIn (t : FileTree) (directory : FilePath) : Except Fault (List FilePath) := do
  return if ← t.hasDirectory directory then Definition.paths t directory else []

def paths (c : Catalog) (t : FileTree) : Except Fault (List FilePath) := do
  return (← Heap.eachOk (pathsIn t) c.directories).flatten

end Catalog

namespace Action

/-- Registers prompts under their ids, and notes the last prompt of every id. -/
def registerEach (noted : Entries Prompt) : List Prompt → Action (Entries Prompt)
  | [] => return noted
  | p :: ps => do
    register p.id (some p)
    let h := (← get).heap
    registerEach (Entries.put h p.id p noted) ps

def loadDirectories (reporting : Bool) (t : FileTree) (settings : ReviewSettings)
    (noted : Entries Prompt) : List FilePath → Action (Entries Prompt × List String)
  | [] => return (noted, [])
  | directory :: directories => do
    let loaded ← loadDirectory reporting t settings directory
    let noted ← registerEach noted loaded.prompts
    let (noted, errors) ← loadDirectories reporting t settings noted directories
    return (noted, loaded.errors ++ errors)

/-- Loads a catalog into the registry, the most important directory last, so that its prompts take
the place of others. -/
def loadAll (reporting : Bool) (t : FileTree) (c : Catalog) : Action Loaded := do
  let (noted, errors) ← loadDirectories reporting t c.settings [] c.directories.reverse
  let loaded : Loaded := ⟨noted.map (·.2), errors⟩
  log .debug <|
    s!"Loaded {loaded.prompts.length} prompt definition(s) from " ++
      s!"{c.directories.length} director(ies), {errors.length} error(s)"
  return loaded

def reload (reporting : Bool) (t : FileTree) (c : Catalog) : Action Loaded := do
  clearRegistry
  loadAll reporting t c

end Action

end Promptbook

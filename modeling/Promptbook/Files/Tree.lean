import Promptbook.Files.Path
import Promptbook.Text.Utf8

namespace Promptbook

inductive FileNode
  | directory
  | file (bytes : List UInt8)
  deriving DecidableEq, Repr, Inhabited

/-- The directory that a program works in, with all that is below it. A place is given by the names
on the way to it. -/
structure FileTree where
  home : FilePath := { names := ["home"] }
  nodes : List (List String × FileNode) := []
  nodup : (nodes.map Prod.fst).Nodup := by simp

namespace FileTree

def find? (t : FileTree) (place : List String) : Option FileNode :=
  if place.isEmpty then some .directory else t.nodes.lookup place

theorem nodup_put {nodes : List (List String × FileNode)} (place : List String) (node : FileNode)
    (h : (nodes.map Prod.fst).Nodup) :
    (((nodes.filter fun e => e.1 ≠ place) ++ [(place, node)]).map Prod.fst).Nodup := by
  rw [List.map_append]
  refine List.nodup_append.2 ⟨(List.Sublist.map _ List.filter_sublist).nodup h, by simp, ?_⟩
  intro a ha b hb
  obtain ⟨e, he, rfl⟩ := List.mem_map.1 ha
  simp only [List.map_cons, List.map_nil, List.mem_singleton] at hb
  rw [hb]
  simpa using (List.mem_filter.1 he).2

theorem nodup_erase {nodes : List (List String × FileNode)} (place : List String)
    (h : (nodes.map Prod.fst).Nodup) :
    ((nodes.filter fun e => e.1 ≠ place).map Prod.fst).Nodup :=
  (List.Sublist.map _ List.filter_sublist).nodup h

def put (t : FileTree) (place : List String) (node : FileNode) : FileTree :=
  { home := t.home
    nodes := (t.nodes.filter fun e => e.1 ≠ place) ++ [(place, node)]
    nodup := nodup_put place node t.nodup }

def erase (t : FileTree) (place : List String) : FileTree :=
  { home := t.home
    nodes := t.nodes.filter fun e => e.1 ≠ place
    nodup := nodup_erase place t.nodup }

def makeWay (t : FileTree) (done : List String) : List String → FileTree
  | [] => t
  | name :: names =>
    let here := done ++ [name]
    makeWay (if (t.find? here).isSome then t else t.put here .directory) here names

/-- Puts a file or directory at a place, with the directories on the way to it. -/
def write (t : FileTree) (place : List String) (node : FileNode) : FileTree :=
  (t.makeWay [] place.dropLast).put place node

def nameLimit : Nat := 255

def pathLimit : Nat := 4095

/-- The place to which names lead from a directory. Every name but the last one has to lead to a
directory, and two points lead to the directory above. -/
def follow (t : FileTree) (place : List String) : List String → Except FileFault (List String)
  | [] => .ok place
  | name :: names =>
    match t.find? place with
    | none => .error .missing
    | some (.file _) => .error .notDirectory
    | some .directory =>
      if name = ".." then
        if place.isEmpty then .error .missing else follow t place.dropLast names
      else if nameLimit < name.utf8ByteSize then .error .nameTooLong
      else follow t (place ++ [name]) names

def locate (t : FileTree) (p : FilePath) : Except FileFault FileNode :=
  if pathLimit < p.text.utf8ByteSize then .error .nameTooLong
  else if p.fromRoot then .error .missing
  else do
    let place ← t.follow [] p.names
    match t.find? place with
    | some node => .ok node
    | none => .error .missing

/-- Says whether a path holds a null character. No file has such a path. -/
def hasNull (p : FilePath) : Bool :=
  p.names.any fun name => name.toList.contains '\x00'

def look (t : FileTree) (p : FilePath) : Except Fault (Option FileNode) :=
  if hasNull p then .ok none
  else
    match t.locate p with
    | .ok node => .ok (some node)
    | .error .missing | .error .notDirectory => .ok none
    | .error cause => .error (.file cause p.text)

def has (t : FileTree) (p : FilePath) : Except Fault Bool :=
  (t.look p).map Option.isSome

def hasDirectory (t : FileTree) (p : FilePath) : Except Fault Bool :=
  (t.look p).map (· == some .directory)

def bytes (t : FileTree) (p : FilePath) : Except Fault (List UInt8) :=
  if hasNull p then .error .nullInPath
  else
    match t.locate p with
    | .ok (.file bytes) => .ok bytes
    | .ok .directory => .error (.file .isDirectory p.text)
    | .error cause => .error (.file cause p.text)

/-- The text of the file that a path leads to, with all line ends written in one way. -/
def text (t : FileTree) (p : FilePath) : Except Fault (List Char) := do
  match Text.decodeUtf8 (← t.bytes p) with
  | .ok s => .ok (Text.unifyNewlines s)
  | .error cause => .error (.decoding cause)

def below? (place : List String) (e : List String × FileNode) : Option (List String) :=
  match e.2 with
  | .file _ => if place.isPrefixOf e.1 then some (e.1.drop place.length) else none
  | .directory => none

def files (t : FileTree) (directory : FilePath) : List FilePath :=
  match t.follow [] directory.names with
  | .error _ => []
  | .ok place =>
    ((t.nodes.filterMap (below? place)).map fun names =>
      { directory with names := directory.names ++ names }).mergeSort FilePath.precedes

def remove (t : FileTree) (p : FilePath) : Except Fault FileTree := do
  let _ ← t.bytes p
  match t.follow [] p.names with
  | .ok place => return t.erase place
  | .error cause => throw (.file cause p.text)

end FileTree

end Promptbook

import Dialect.Files.Path

/-!
# File trees

A file system as a value: which directories and files there are, and what the files hold. Only what
a run does to one is defined here: listing a directory, reading a file, making a directory with all
those around it, and putting a file in the place of an older one. The writing operations are
`Action`s, performed one after the other until one fails.
-/

namespace Dialect.Files

/-- What a path can lead to. -/
inductive Node where
  | directory
  | file (bytes : List UInt8)
  deriving DecidableEq, Repr

/-- The names on the way from the root. -/
abbrev Location := List String

/-- A file system. The root is a directory and is not listed. -/
structure Tree where
  nodes : List (Location × Node) := []
  deriving Repr

/-- The operation that a file system refused, by the path it concerned. -/
structure Refusal where
  path : String
  deriving DecidableEq, Repr

/-- The number of bytes a name may have. -/
def nameLimit : Nat := 255

/-- The number of bytes a path may have. -/
def pathLimit : Nat := 4095

/-- A text that can name a file or a directory. -/
def isName (s : String) : Bool := s.utf8ByteSize ≤ nameLimit && s.toList.all (· != '\x00')

/-- A text that is short enough to be followed as a path. -/
def isPath (s : String) : Bool := s.utf8ByteSize ≤ pathLimit

namespace Tree

/-- What there is at a location. -/
def node? (t : Tree) (l : Location) : Option Node :=
  if l = [] then some .directory else t.nodes.lookup l

/-- There is a directory at the location. -/
def isDirectory (t : Tree) (l : Location) : Bool := t.node? l == some .directory

/-- The tree with `node` at a location, in the place of what was there. -/
def put (t : Tree) (l : Location) (node : Node) : Tree :=
  ⟨t.nodes.filter (·.1 != l) ++ [(l, node)]⟩

/-- Follows the parts of a path from the directory `l`. Every part but the last must lead to a
directory, and the last need not lead to anything. -/
def follow (t : Tree) (l : Location) : List String → Option Location
  | [] => some l
  | part :: rest =>
    if !t.isDirectory l then none
    else if part = ".." then follow t l.dropLast rest
    else if isName part then follow t (l ++ [part]) rest
    else none

/-- The location a path leads to from the root. -/
def locate? (t : Tree) (path : String) : Option Location :=
  if isPath path then t.follow [] (Path.parts path) else none

/-- The names in the directory at a location. -/
def names (t : Tree) (l : Location) : List String :=
  t.nodes.filterMap fun (k, _) =>
    match k.getLast? with
    | some name => if k.dropLast = l then some name else none
    | none => none

/-- The name is that of a file in the directory at a location, and `path`, which leads to the
directory, is short enough to lead on to the file. -/
def listsFile (t : Tree) (path : String) (l : Location) (name : String) : Bool :=
  isPath (Path.join path name) && !t.isDirectory (l ++ [name])

/-- The names of the files in a directory. -/
def fileNames? (t : Tree) (path : String) : Option (List String) := do
  let l ← t.locate? path
  if t.isDirectory l then some ((t.names l).filter (t.listsFile path l)) else none

/-- What the file at a path holds. -/
def read? (t : Tree) (path : String) : Option (List UInt8) := do
  let l ← t.locate? path
  match t.node? l with
  | some (.file bytes) => some bytes
  | _ => none

/-- Follows the parts of a path from the directory `l` and makes the directories that are missing.
The second part of the answer is whether all went well. -/
def makeDirectories (t : Tree) (l : Location) : List String → Tree × Bool
  | [] => (t, true)
  | part :: rest =>
    if part = ".." then makeDirectories t l.dropLast rest
    else
      match t.node? (l ++ [part]) with
      | some .directory => makeDirectories t (l ++ [part]) rest
      | some (.file _) => (t, false)
      | none =>
        if isName part then makeDirectories (t.put (l ++ [part]) .directory) (l ++ [part]) rest
        else (t, false)

/-- Makes the directory at a path and those around it. A directory that the path names from within
is not made: it has to be there. -/
def makeDirectory (t : Tree) (path : String) : Tree × Bool :=
  let parts := Path.parts path
  if !isPath path then (t, false)
  else if Path.endsInDot path then
    let (t, made) := t.makeDirectories [] parts.dropLast
    (t, made && (t.follow [] parts).any t.isDirectory)
  else t.makeDirectories [] parts

end Tree

/-- A change to a file system. -/
inductive Action where
  /-- Makes a directory, and those around it, where there is none. -/
  | makeDirectory (path : String)
  /-- Puts a file in a directory that is there, at once and as a whole. -/
  | write (path : String) (bytes : List UInt8)
  deriving DecidableEq, Repr

namespace Tree

/-- Puts a file at a path. The path of the directory is refused when there is no such directory, the
path itself when it is too long, when a directory is in the way or when the name is none. -/
def write (t : Tree) (path : String) (bytes : List UInt8) : Except Refusal Tree :=
  match t.locate? (Path.parent path), (Path.parts path).getLast? with
  | some l, some name =>
    if !t.isDirectory l then .error ⟨Path.parent path⟩
    else if !isPath path || !isName name || t.isDirectory (l ++ [name]) then .error ⟨path⟩
    else .ok (t.put (l ++ [name]) (.file bytes))
  | _, _ => .error ⟨Path.parent path⟩

/-- Performs a change. The tree is the one after it, also if it was refused on the way. -/
def perform (t : Tree) : Action → Tree × Option Refusal
  | .makeDirectory path =>
    let (t, made) := t.makeDirectory path
    (t, if made then none else some ⟨path⟩)
  | .write path bytes =>
    match t.write path bytes with
    | .ok t => (t, none)
    | .error refusal => (t, some refusal)

/-- Performs changes one after the other, up to the first that is refused. -/
def performAll (t : Tree) : List Action → Tree × Option Refusal
  | [] => (t, none)
  | action :: rest =>
    match t.perform action with
    | (t, none) => t.performAll rest
    | (t, some refusal) => (t, some refusal)

end Tree

end Dialect.Files

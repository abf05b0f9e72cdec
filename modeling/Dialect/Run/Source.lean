import Dialect.Files.Path
import Dialect.Markup.Fault

/-!
# Sources

The schema documents of a run: the files of a directory whose names end in `.xml`, in the order of
their names. A document is named for its file, and what the file holds has to be text.
-/

namespace Dialect.Run

open Dialect.Files (Path.join Path.extension? Path.stem)

/-- A schema document before it is read. -/
structure Source where
  /-- The name of its file without the ending. -/
  name : String
  path : String
  text : Except Markup.Fault String

/-- The name is that of a schema document: it ends in `.xml`, letters in either case. -/
def isSchemaName (name : String) : Bool :=
  match Path.extension? name with
  | none => false
  | some ending => ending.toList.map Char.toLower == ['x', 'm', 'l']

/-- Puts a name before the first that does not come before it. -/
def insertName (name : String) : List String → List String
  | [] => [name]
  | other :: rest => if name ≤ other then name :: other :: rest else other :: insertName name rest

/-- The names of schema documents among the names of files, in order. -/
def schemaNames (names : List String) : List String :=
  (names.filter isSchemaName).foldr insertName []

/-- The text that some bytes hold. -/
def decodeText (bytes : List UInt8) : Except Markup.Fault String :=
  match Text.Utf8.decode bytes with
  | .ok s => .ok (String.ofList s)
  | .error fault => .error (.encoding fault)

/-- The source in the file `name` of a directory. -/
def Source.ofFile (directory name : String) (bytes : List UInt8) : Source :=
  ⟨Path.stem name, Path.join directory name, decodeText bytes⟩

end Dialect.Run

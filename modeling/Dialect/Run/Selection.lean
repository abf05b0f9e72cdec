import Dialect.Schema.Document
import Dialect.Text.Casing

/-!
# Selections

Which messages of a document are listed in a run. Two messages of one document cannot share a
listing, and two messages of one run cannot share an id; in both cases the first one stays and the
other leaves a fault. Only a message that stays takes up a listing or an id.
-/

namespace Dialect.Run

open Dialect.Schema (Document Fault Message Table)

/-- The file that lists a message. Names that differ only in case share it. -/
def listingFile (m : Message) : String := s!"msg_{Text.lower m.name}.txt"

/-- The messages chosen so far: each with its file, and the ids of the whole run. -/
structure Selection where
  kept : List (String × Message) := []
  table : Table
  faults : List Fault := []
  deriving DecidableEq, Repr

/-- Chooses one more message, if its file and its id are free. -/
def Selection.add (s : Selection) (m : Message) : Selection :=
  let file := listingFile m
  match s.kept.lookup file with
  | some existing =>
    { s with faults := s.faults ++ [.artifactCollision m.name existing.name file] }
  | none =>
    match s.table.registerMessage m with
    | .ok table => { s with kept := s.kept ++ [(file, m)], table := table }
    | .error fault => { s with faults := s.faults ++ [fault] }

/-- Chooses among the messages of a document; `table` holds those of the documents before it. -/
def select (table : Table) (messages : List Message) : Selection :=
  messages.foldl Selection.add { table }

end Dialect.Run

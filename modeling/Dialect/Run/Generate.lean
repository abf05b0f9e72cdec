import Dialect.Files.Tree
import Dialect.Listing.Enumeration
import Dialect.Listing.Message
import Dialect.Listing.Table
import Dialect.Run.Report
import Dialect.Run.Selection
import Dialect.Run.Source
import Dialect.Work.FanOut

/-!
# Runs

A run compiles all schema documents of a directory and writes listings into another. What it writes
is settled before anything is written: `outcome` turns the sources into a report and a list of
changes, and `generate` reads the sources from a file tree and performs the changes on it. What is
refused in the schemas is reported and does not stop the run. A change that the file system refuses
stops it where it is, and names in the schemas can bring that about: nothing checks whether the name
of a message can be part of a path.
-/

namespace Dialect.Run

open Dialect.Files (Action Path.join Refusal Tree)
open Dialect.Payload (ByteOrder)
open Dialect.Schema (Document Enumeration Message Table)

/-- What a run is asked to do. -/
structure Options where
  schemaDirectory : String
  outputDirectory : String
  workers : Nat := Work.defaultWorkers
  order : ByteOrder := .little
  deriving DecidableEq, Repr

/-- The change that puts a text in a file of a directory. -/
def writeText (directory file text : String) : Action :=
  .write (Path.join directory file) (Schema.textBytes text)

/-- The file that lists the enumerations of a document. -/
def enumerationsFile (document : String) : String := s!"{document}.enums.txt"

/-- The changes that list a document: its directory, its messages, its enumerations. -/
def documentActions (o : Options) (name : String) (kept : List (String × Message))
    (enumerations : List Enumeration) : List Action :=
  let directory := Path.join o.outputDirectory name
  .makeDirectory directory ::
    kept.map (fun k => writeText directory k.1 (Listing.message o.order k.2)) ++
    [writeText directory (enumerationsFile name) (Listing.enumerations name enumerations)]

/-- The directory of what is written once for a run. -/
def summaryDirectory (o : Options) : String := Path.join o.outputDirectory "main"

/-- The changes that list the table of a run. -/
def summaryActions (o : Options) (table : Table) : List Action :=
  [.makeDirectory (summaryDirectory o),
    writeText (summaryDirectory o) "crc_table.txt" (Listing.codes table),
    writeText (summaryDirectory o) "dispatch.txt" (Listing.dispatch table)]

/-- What became of some documents of a run: their reports, the table behind them, and the changes
that list them. -/
structure Progress where
  reports : List DocumentReport := []
  table : Table := {}
  actions : List Action := []

/-- Goes on with one more document. -/
def Progress.add (o : Options) (p : Progress) (compiled : Source × Except Markup.Fault Document) :
    Progress :=
  let (source, result) := compiled
  match result with
  | .error fault =>
    { p with reports := p.reports ++ [⟨source.name, source.path, some fault, [], [], 0⟩] }
  | .ok document =>
    let s := select p.table document.messages
    let report : DocumentReport :=
      ⟨source.name, source.path, none, document.faults ++ s.faults, s.kept.map (·.2.name),
        document.enumerations.length⟩
    ⟨p.reports ++ [report], s.table,
      p.actions ++ documentActions o source.name s.kept document.enumerations⟩

/-- Compiles the source of a document with the given number of workers. -/
def Source.compile (workers : Nat) (s : Source) : Except Markup.Fault Document := do
  let text ← s.text
  Document.ofSource s.name text workers

/-- The number of workers each of some documents gets: an equal share, and one at least. -/
def workersEach (workers documents : Nat) : Nat :=
  let share := workers / documents
  if share = 0 then 1 else share

/-- Compiles sources side by side. -/
def compileAll (workers : Nat) (sources : List Source) :
    List (Source × Except Markup.Fault Document) :=
  Work.fanOut workers (fun s => (s, s.compile (workersEach workers sources.length))) sources

/-- The report of a run over some sources, and the changes it makes. -/
def outcome (o : Options) (sources : List Source) : Report × List Action :=
  let p := (compileAll o.workers sources).foldl (Progress.add o) {}
  (⟨p.reports, p.table⟩, p.actions ++ summaryActions o p.table)

/-! ## On a file tree -/

/-- The paths of the schema documents in a directory, in order. -/
def discover (t : Tree) (directory : String) : Except Refusal (List String) :=
  match t.fileNames? directory with
  | none => .error ⟨directory⟩
  | some names => .ok ((schemaNames names).map (Path.join directory))

/-- The schema documents in a directory, in order. -/
def readSources (t : Tree) (directory : String) : Except Refusal (List Source) :=
  match t.fileNames? directory with
  | none => .error ⟨directory⟩
  | some names =>
    (schemaNames names).mapM fun name =>
      match t.read? (Path.join directory name) with
      | some bytes => .ok (Source.ofFile directory name bytes)
      | none => .error ⟨Path.join directory name⟩

/-- Runs on a file tree. The answer is the tree after the run, and the report or what the file
system refused. -/
def generate (o : Options) (t : Tree) : Tree × Except Refusal Report :=
  match readSources t o.schemaDirectory with
  | .error refusal => (t, .error refusal)
  | .ok sources =>
    let (report, actions) := outcome o sources
    match t.performAll actions with
    | (t, none) => (t, .ok report)
    | (t, some refusal) => (t, .error refusal)

end Dialect.Run

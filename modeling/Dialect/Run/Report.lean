import Dialect.Markup.Fault
import Dialect.Schema.Table

/-!
# Reports

What a run has to say about each of its documents, and the table of all messages it listed.
-/

namespace Dialect.Run

/-- The outcome for one document. -/
structure DocumentReport where
  name : String
  path : String
  /-- Why the document could not be read; then nothing came of it. -/
  parseFault : Option Markup.Fault
  faults : List Schema.Fault
  /-- The names of the messages that were listed, in document order. -/
  messages : List String
  /-- The number of enumerations that were listed. -/
  enumerations : Nat
  deriving DecidableEq, Repr

/-- The number of faults found in the document. -/
def DocumentReport.faultCount (r : DocumentReport) : Nat :=
  r.faults.length + if r.parseFault.isSome then 1 else 0

/-- The wordings of all faults, in the order in which they are reported. -/
def DocumentReport.faultMessages (r : DocumentReport) : List String :=
  (r.parseFault.map Markup.Fault.message).toList ++ r.faults.map Schema.Fault.message

/-- The outcome of a run. -/
structure Report where
  documents : List DocumentReport
  table : Schema.Table
  deriving DecidableEq, Repr

namespace Report

/-- The number of faults in all documents. -/
def faultCount (r : Report) : Nat :=
  r.documents.foldr (fun d n => d.faultCount + n) 0

/-- The number of messages listed for all documents. -/
def messageCount (r : Report) : Nat :=
  r.documents.foldr (fun d n => d.messages.length + n) 0

end Report

end Dialect.Run

import Dialect.Markup.Document
import Dialect.Schema.Definition
import Dialect.Schema.Table
import Dialect.Work.FanOut

/-!
# Documents

Everything one schema document defines. Definitions stand or fall alone: a refused one leaves a
fault behind and nothing else, so the first message that is well-formed holds its id.
-/

namespace Dialect.Schema

open Dialect.Markup (Element)

/-- What a schema document defines. -/
structure Document where
  name : String
  /-- The messages that were accepted, in document order. -/
  messages : List Message
  enumerations : List Enumeration
  table : Table
  /-- The faults of the messages, then those of the enumerations. -/
  faults : List Fault
  deriving DecidableEq, Repr

namespace Document

/-- The elements under a root that define messages. -/
def messageElements (root : Element) : List Element :=
  (root.childrenNamed "messages").flatMap (·.childrenNamed "message")

/-- The elements under a root that define enumerations. -/
def enumerationElements (root : Element) : List Element :=
  (root.childrenNamed "enums").flatMap (·.childrenNamed "enum")

/-- Messages on their way into a table: those that found room, and the faults of the others. -/
structure Intake where
  messages : List Message := []
  table : Table := {}
  faults : List Fault := []

/-- Takes in one more message, if it is well-formed and its id is free. -/
def Intake.add (acc : Intake) (message : Except Fault Message) : Intake :=
  let accepted := do
    let m ← message
    let table ← acc.table.registerMessage m
    return (m, table)
  match accepted with
  | .ok (m, table) => { acc with messages := acc.messages ++ [m], table := table }
  | .error fault => { acc with faults := acc.faults ++ [fault] }

/-- The answers among a list of results. -/
def successes (results : List (Except Fault α)) : List α :=
  results.filterMap fun
    | .ok a => some a
    | .error _ => none

/-- The faults among a list of results. -/
def failures (results : List (Except Fault α)) : List Fault :=
  results.filterMap fun
    | .ok _ => none
    | .error fault => some fault

/-- The document with the given root. Messages are compiled by up to `workers` tasks and entered in
document order. -/
def ofElement (name : String) (root : Element) (workers : Nat) : Document :=
  let compiled := Work.fanOut workers Message.ofElement (messageElements root)
  let intake := compiled.foldl Intake.add {}
  let enumerations := (enumerationElements root).map Enumeration.ofElement
  ⟨name, intake.messages, successes enumerations, intake.table,
    intake.faults ++ failures enumerations⟩

/-- The document with the given source. -/
def ofSource (name source : String) (workers : Nat) : Except Markup.Fault Document := do
  let root ← Markup.parse source
  return ofElement name root workers

end Document

end Dialect.Schema

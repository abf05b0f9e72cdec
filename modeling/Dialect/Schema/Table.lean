import Dialect.Schema.Fault
import Dialect.Schema.Message

/-!
# The compatibility table

Which message has which id, and its code. A slot is written once: a second message under the same id
is refused and changes nothing. Ids without a message have code zero.
-/

namespace Dialect.Schema

/-- A filled slot of the table. -/
structure Slot where
  id : UInt8
  name : String
  code : UInt8
  deriving DecidableEq, Repr

/-- A compatibility table: its filled slots, in the order of their registration. -/
structure Table where
  slots : List Slot := []
  deriving DecidableEq, Repr

namespace Table

/-- The number of slots, filled or not. -/
def size : Nat := maxId.toNat + 1

/-- The slot with the given id, if it is filled. -/
def slot? (t : Table) (id : UInt8) : Option Slot := t.slots.find? (·.id == id)

/-- Fills the slot `id`. -/
def register (t : Table) (id : UInt8) (name : String) (code : UInt8) : Except Fault Table :=
  if maxId < id then .error (.invalidId name s!"{id}")
  else
    match t.slot? id with
    | some existing => .error (.duplicateId id name existing.name)
    | none => .ok ⟨t.slots ++ [⟨id, name, code⟩]⟩

/-- Fills the slot of a message. -/
def registerMessage (t : Table) (m : Message) : Except Fault Table := t.register m.id m.name m.code

/-- The code under an id, zero if there is none. -/
def code (t : Table) (id : UInt8) : UInt8 := ((t.slot? id).map Slot.code).getD 0

/-- The slot `id` is filled. -/
def isSet (t : Table) (id : UInt8) : Bool := (t.slot? id).isSome

/-- The name of the message under an id. -/
def name? (t : Table) (id : UInt8) : Option String := (t.slot? id).map Slot.name

/-- All ids of the table in ascending order. -/
def ids : List UInt8 := (List.range size).map UInt8.ofNat

/-- The codes of all slots in id order. -/
def codes (t : Table) : List UInt8 := ids.map t.code

/-- The filled slots in id order. -/
def entries (t : Table) : List Slot := ids.filterMap t.slot?

/-- The number of filled slots. -/
def count (t : Table) : Nat := t.slots.length

end Table

/-- Ends the checksum of a packet with the code of its message. -/
def Checksum.finish (c : Checksum) (id : UInt8) (t : Table) : Checksum := c.update (t.code id)

end Dialect.Schema

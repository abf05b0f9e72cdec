import Dialect.Schema.Message

/-!
# Plans

How a message lies in its payload, step by step: one step for a scalar field, one for each element
of an array, in wire order, each with the place where its bytes begin. Packing and unpacking both go
through the same steps, and the listings print them.
-/

namespace Dialect.Payload

open Dialect.Schema (Field Message Wire)

/-- One number of a payload. -/
structure Step where
  field : String
  wire : Wire
  /-- The place in its array, counted from one; nothing for a scalar. -/
  index : Option Nat
  /-- The number of bytes in front of it. -/
  offset : Nat
  deriving DecidableEq, Repr

/-- The steps of an array from the element `index` on. -/
def elementSteps (f : Field) (index offset : Nat) : Nat → List Step
  | 0 => []
  | count + 1 =>
    ⟨f.name, f.type.wire, some index, offset⟩ ::
      elementSteps f (index + 1) (offset + f.type.width) count

/-- The steps of a field whose bytes begin at `offset`. -/
def fieldSteps (f : Field) (offset : Nat) : List Step :=
  if f.isArray then elementSteps f 1 offset f.arity.toNat
  else [⟨f.name, f.type.wire, none, offset⟩]

/-- The number of steps of a field. -/
def stepCount (f : Field) : Nat := if f.isArray then f.arity.toNat else 1

/-- The steps of fields whose bytes begin at `offset`. -/
def stepsFrom (offset : Nat) : List Field → List Step
  | [] => []
  | f :: rest => fieldSteps f offset ++ stepsFrom (offset + f.type.width * stepCount f) rest

/-- The steps of a message. -/
def plan (m : Message) : List Step := stepsFrom 0 m.fields

/-- What has to be checked before packing: the number of elements each field must hold. -/
def lengths (m : Message) : List (String × Nat) := m.fields.map fun f => (f.name, f.arity.toNat)

end Dialect.Payload

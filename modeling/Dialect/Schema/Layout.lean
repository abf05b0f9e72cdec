import Dialect.Schema.Fault
import Dialect.Schema.Message

/-!
# Layouts

Fields are declared in any order and sent in another: those of a wider alignment class first, those
of one class as declared. The wire order is part of what sender and receiver agree on, so it also
enters the compatibility code. `Message.layOut` makes a message of its declared fields.
-/

namespace Dialect.Schema

/-- Puts a field in front of the first one whose class does not come before its own. -/
def place (f : Field) : List Field → List Field
  | [] => [f]
  | g :: rest => if f.rank ≤ g.rank then f :: g :: rest else g :: place f rest

/-- The declared fields in wire order. -/
def wireOrder (declared : List Field) : List Field := declared.foldr place []

/-- The first field whose name one of the fields before it has; `seen` are the names passed. -/
def firstRepeat? (seen : List String) : List Field → Option Field
  | [] => none
  | f :: rest => if f.name ∈ seen then some f else firstRepeat? (f.name :: seen) rest

/-- The message with the given declared fields, unless two of them have the same name. -/
def Message.layOut (id : UInt8) (name : String) (description : Option String)
    (declared : List Field) : Except Fault Message :=
  match firstRepeat? [] declared with
  | some f => .error (.duplicateField name f.name)
  | none => .ok ⟨id, name, description, wireOrder declared⟩

end Dialect.Schema

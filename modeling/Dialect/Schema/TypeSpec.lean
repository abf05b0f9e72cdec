import Dialect.Schema.Primitive
import Dialect.Text.Blank
import Dialect.Text.Numeral

/-!
# Type specifications

The type of a field as a schema writes it: the name of a primitive, or such a name with the length
of an array in square brackets. `TypeSpec.parse` reads one and `TypeSpec.text` writes one.
-/

namespace Dialect.Schema

/-- A type with the number of its elements, one for a scalar. -/
structure TypeSpec where
  type : Primitive
  arity : UInt8
  deriving DecidableEq, Repr

namespace TypeSpec

/-- Why a text is no type specification. -/
inductive Fault where
  /-- The brackets do not hold the length of an array. -/
  | malformedArray
  | unknownType (name : String)
  | arityOverflow (arity : Nat)
  deriving DecidableEq, Repr

/-- Splits a text in front of the first opening bracket; the second part is what follows it. -/
def splitBracket : List Char → List Char × Option (List Char)
  | [] => ([], none)
  | '[' :: rest => ([], some rest)
  | c :: rest => let p := splitBracket rest; (c :: p.1, p.2)

/-- The text without a closing bracket at its end, which it must have. -/
def unclose? : List Char → Option (List Char)
  | [] => none
  | [c] => if c = ']' then some [] else none
  | c :: rest => (unclose? rest).map (c :: ·)

/-- The length an array declares, by what follows its opening bracket. -/
def length? (s : List Char) : Option Nat :=
  ((unclose? s).bind (Text.numeral? 10)).filter (0 < ·)

/-- The largest length that is reported as it stands; larger ones are reported as this one. -/
def reportLimit : Nat := UInt64.size - 1

/-- Reads a specification that has no blanks around it. Faults of the brackets win over an unknown
name, and an unknown name over a length that is too large. -/
def parseTrimmed (s : List Char) : Except Fault TypeSpec := do
  let (base, bracket) := splitBracket s
  let arity ← match bracket with
    | none => .ok 1
    | some inside =>
      match length? inside with
      | none => .error .malformedArray
      | some n => .ok n
  match Primitive.ofName? (String.ofList base) with
  | none => .error (.unknownType (String.ofList base))
  | some type =>
    if arity < 256 then .ok ⟨type, UInt8.ofNat arity⟩
    else .error (.arityOverflow (min arity reportLimit))

/-- Reads a specification; blanks around it count for nothing. -/
def parse (s : String) : Except Fault TypeSpec := parseTrimmed (Text.trim s.toList)

/-- Writes a specification: a length stands only where there is more than one element. -/
def text (t : TypeSpec) : String :=
  if 1 < t.arity then s!"{t.type.name}[{t.arity}]" else t.type.name

end TypeSpec

end Dialect.Schema

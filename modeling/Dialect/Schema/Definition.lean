import Dialect.Markup.Element
import Dialect.Schema.Enumeration
import Dialect.Schema.Layout
import Dialect.Schema.TypeSpec

/-!
# Definitions

What an element of a schema document defines: a message or an enumeration. Checks are made in the
order of the text, and the first that fails is the fault reported.
-/

namespace Dialect.Schema

open Dialect.Markup (Element)

/-- An attribute that has to be there; `described` is how the fault names the element. -/
def required (e : Element) (key described : String) : Except Fault String :=
  match e.attribute? key with
  | some value => .ok value
  | none => .error (.missingAttribute described key)

/-! ## Messages -/

/-- The id a text denotes: digits alone, blanks around them left out of account. -/
def parseId? (raw : String) : Option UInt8 :=
  ((Text.numeral? 10 (Text.trim raw.toList)).filter (· ≤ maxId.toNat)).map UInt8.ofNat

/-- A fault of a type specification, as a fault of the field that has it. -/
def TypeSpec.Fault.inField (message field spec : String) : TypeSpec.Fault → Schema.Fault
  | .malformedArray => .malformedArray message field (String.ofList (Text.trim spec.toList))
  | .unknownType name => .unknownType message field name
  | .arityOverflow arity => .arityOverflow message field arity

/-- The field that an element of the given message declares. -/
def Field.ofElement (message : String) (e : Element) : Except Fault Field := do
  let name ← required e "name" s!"field of {message}"
  let raw ← required e "type" s!"field {message}.{name}"
  let spec ← (TypeSpec.parse raw).mapError (TypeSpec.Fault.inField message name raw)
  return .declare name spec.type spec.arity e.lineOfText

/-- The message that an element defines. -/
def Message.ofElement (e : Element) : Except Fault Message := do
  let name ← required e "name" e.name
  let raw ← required e "id" s!"{e.name} {name}"
  match parseId? raw with
  | none => .error (.invalidId name raw)
  | some id =>
    let fields ← (e.childrenNamed "field").mapM (Field.ofElement name)
    Message.layOut id name (e.childText? "description") fields

/-! ## Enumerations -/

/-- The number is one of sixty-four bits. -/
def inInt64 (n : Int) : Bool := Int64.minValue.toInt ≤ n && n ≤ Int64.maxValue.toInt

/-- The number a text denotes: decimal, or hexadecimal behind `0x` or `0X`, with an optional sign in
front of the digits and blanks around the whole left out of account. -/
def parseValue? (raw : String) : Option Int :=
  let number? :=
    match Text.trim raw.toList with
    | '0' :: 'x' :: digits => Text.signedNumeral? 16 digits
    | '0' :: 'X' :: digits => Text.signedNumeral? 16 digits
    | s => Text.signedNumeral? 10 s
  number?.filter inInt64

/-- The entry that an element of the given enumeration defines. `next` is the number of an entry
that gives none; the second part of the answer is the number for the next such entry. -/
def Entry.ofElement (enumeration : String) (next : Int) (e : Element) :
    Except Fault (Entry × Int) := do
  let name ← required e "name" s!"entry of {enumeration}"
  let (value, next) ← match e.attribute? "value" with
    | none => .ok (next, next + 1)
    | some raw =>
      match parseValue? raw with
      | some value => .ok (value, next)
      | none => .error (.invalidValue enumeration name raw)
  return (⟨Text.upper name, value, e.childText? "description"⟩, next)

/-- The entries that elements define one after the other. -/
def entriesOfElements (enumeration : String) (next : Int) : List Element → Except Fault (List Entry)
  | [] => .ok []
  | e :: rest => do
    let (entry, next) ← Entry.ofElement enumeration next e
    let entries ← entriesOfElements enumeration next rest
    return entry :: entries

/-- The enumeration that an element defines. -/
def Enumeration.ofElement (e : Element) : Except Fault Enumeration := do
  let name ← required e "name" e.name
  let entries ← entriesOfElements name 0 (e.childrenNamed "entry")
  return ⟨name, e.childText? "description", entries⟩

/-- All enumerations under an element, or the fault of the first that has one. -/
def enumerationsOfElement (e : Element) : Except Fault (List Enumeration) :=
  (e.childrenNamed "enum").mapM Enumeration.ofElement

end Dialect.Schema

/-!
# Faults of a schema

Why a message or an enumeration of a schema is refused. A fault concerns one definition only; the
others are not touched by it.
-/

namespace Dialect.Schema

/-- The highest id a message may have. -/
def maxId : UInt8 := 254

/-- Why a definition is refused. -/
inductive Fault where
  | missingAttribute (element key : String)
  | invalidId (message value : String)
  | unknownType (message field type : String)
  | malformedArray (message field type : String)
  | arityOverflow (message field : String) (arity : Nat)
  | duplicateField (message field : String)
  | duplicateId (id : UInt8) (message existing : String)
  | invalidValue (enumeration entry value : String)
  | artifactCollision (message existing file : String)
  deriving DecidableEq, Repr

/-- The wording of a fault. -/
def Fault.message : Fault → String
  | .missingAttribute element key => s!"<{element}> is missing the '{key}' attribute"
  | .invalidId message value => s!"message {message}: invalid id '{value}' (expected 0..={maxId})"
  | .unknownType message field type =>
    s!"message {message}: field '{field}' has unknown type '{type}'"
  | .malformedArray message field type =>
    s!"message {message}: field '{field}' has malformed array type '{type}'"
  | .arityOverflow message field arity =>
    s!"message {message}: field '{field}' array length {arity} does not fit in one byte"
  | .duplicateField message field => s!"message {message}: duplicate field '{field}'"
  | .duplicateId id message existing =>
    s!"message {message}: id {id} already used by {existing}"
  | .invalidValue enumeration entry value =>
    s!"enum {enumeration}: entry '{entry}' has invalid value '{value}'"
  | .artifactCollision message existing file =>
    s!"message {message}: artifact {file} already written for {existing}"

end Dialect.Schema

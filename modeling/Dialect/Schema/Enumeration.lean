/-!
# Enumerations

Named numbers, in the order of the schema.
-/

namespace Dialect.Schema

/-- A named number. -/
structure Entry where
  name : String
  value : Int
  description : Option String
  deriving DecidableEq, Repr

/-- A named list of entries. -/
structure Enumeration where
  name : String
  description : Option String
  entries : List Entry
  deriving DecidableEq, Repr

end Dialect.Schema

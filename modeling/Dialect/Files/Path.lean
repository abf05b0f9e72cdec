/-!
# Paths

Paths are texts, parts separated by slashes. What they lead to depends only on their `parts`: empty
parts and single dots say nothing, two dots lead up. The text is kept as it was put together, since
it is what a reader is shown.
-/

namespace Dialect.Files.Path

/-- The parts between the slashes of a path, empty ones included. -/
def split : List Char → List (List Char)
  | [] => [[]]
  | c :: rest =>
    match split rest with
    | [] => [[c]]
    | part :: more => if c = '/' then [] :: part :: more else (c :: part) :: more

/-- The parts of a path that lead somewhere. -/
def parts (path : String) : List String :=
  ((split path.toList).filter fun p => p ≠ [] ∧ p ≠ ['.']).map String.ofList

/-- The path ends in a single dot: it names a directory from within. -/
def endsInDot (path : String) : Bool :=
  ((split path.toList).filter (· ≠ [])).getLast? == some ['.']

/-- The path that leads from `base` to `name`. A name that begins with a slash leads there from
anywhere. -/
def join (base name : String) : String :=
  if name.toList.head? = some '/' ∨ base = "" then name
  else if base.toList.getLast? = some '/' then base ++ name
  else base ++ "/" ++ name

/-- A path, last character first, without the slashes and single dots at its end. -/
def trimEnd : List Char → List Char
  | [] => []
  | ['/'] => ['/']
  | '/' :: rest => trimEnd rest
  | '.' :: rest =>
    match rest with
    | '/' :: _ => trimEnd rest
    | _ => '.' :: rest
  | c :: rest => c :: rest

/-- The path of the directory that the last part of a path lies in. -/
def parent (path : String) : String :=
  String.ofList (trimEnd (path.toList.reverse.dropWhile (· != '/'))).reverse

/-- Splits a name at its last dot, last character first: what stands behind the dot and what stands
in front of it. A name without a dot, and one that only begins with a dot, has nothing behind. -/
def splitDot (reversed : List Char) : Option (List Char × List Char) :=
  match reversed.span (· != '.') with
  | (_, []) => none
  | (_, [_]) => none
  | (behind, _ :: front) => some (behind, front)

/-- What stands behind the last dot of a name. -/
def extension? (name : String) : Option String :=
  (splitDot name.toList.reverse).map fun p => String.ofList p.1.reverse

/-- What stands in front of the last dot of a name. -/
def stem (name : String) : String :=
  match splitDot name.toList.reverse with
  | none => name
  | some (_, front) => String.ofList front.reverse

end Dialect.Files.Path

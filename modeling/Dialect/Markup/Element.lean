import Dialect.Text.Blank

/-!
# Element trees

The tree a schema document is read into, and the questions the compiler asks of it. All look-ups by
name answer with the first match in document order.
-/

namespace Dialect.Markup

/-- An element: its tag, its attributes and child elements in document order, and its own text. -/
structure Element where
  name : String
  attributes : List (String × String)
  children : List Element
  /-- Text runs and CDATA sections directly inside the element, joined, references expanded. -/
  text : String
  /-- The line, counted from one, on which the opening tag begins. -/
  line : Nat
  deriving Inhabited

namespace Element

/-- The value of an attribute. -/
def attribute? (e : Element) (name : String) : Option String := e.attributes.lookup name

/-- The child elements with the given tag. -/
def childrenNamed (e : Element) (tag : String) : List Element :=
  e.children.filter (·.name == tag)

/-- The first child element with the given tag. -/
def child? (e : Element) (tag : String) : Option Element := e.children.find? (·.name == tag)

/-- The element's own text on one line. -/
def lineOfText (e : Element) : String := Text.oneLine e.text

/-- The text of the first child with the given tag, on one line. -/
def childText? (e : Element) (tag : String) : Option String := (e.child? tag).map lineOfText

/-- The element with one more child at the end. -/
def addChild (e child : Element) : Element := { e with children := e.children ++ [child] }

/-- The element with more text at the end. -/
def addText (e : Element) (s : List Char) : Element := { e with text := e.text ++ String.ofList s }

end Element

end Dialect.Markup

import Dialect.Markup.Element
import Dialect.Markup.Fault
import Dialect.Markup.Reference
import Dialect.Markup.Token

/-!
# Documents

From tokens to the element tree. The tokens come in the order of the source, and so do the faults:
a source that follows the grammar fails with the first reference that stands for nothing or the
first closing tag that does not match, whichever comes first.
-/

namespace Dialect.Markup

/-- The text with its references expanded; `line` is where a fault in it is reported. -/
def expandAt (line : Nat) (s : List Char) : Except Fault (List Char) :=
  (expand s).mapError fun entity => .unknownEntity entity line

/-- An attribute with the references in its value expanded. -/
def RawAttribute.expand (a : RawAttribute) : Except Fault (String × String) := do
  let value ← expandAt a.line a.value
  return (a.name, String.ofList value)

/-- Takes the tokens into the tree. `current` is the innermost open element, `outer` are the open
elements around it, innermost first. -/
def assemble (current : Element) (outer : List Element) : List Token → Except Fault Element
  | [] => .ok current
  | .opening line name attributes isEmpty :: rest => do
    let attributes ← attributes.mapM RawAttribute.expand
    let element : Element := ⟨name, attributes, [], "", line⟩
    if isEmpty then assemble (current.addChild element) outer rest
    else assemble element (current :: outer) rest
  | .closing line name :: rest =>
    if current.name = name then
      match outer with
      | [] => .error .malformed
      | parent :: outer => assemble (parent.addChild current) outer rest
    else .error (.mismatchedTag current.name name line)
  | .text line run :: rest => do
    let text ← expandAt line run
    assemble (current.addText text) outer rest
  | .cdata body :: rest => assemble (current.addText body) outer rest
  | .ignored :: rest => assemble current outer rest

/-- The document as an element of its own, around the root element. -/
def documentNode : Element := ⟨"", [], [], "", 0⟩

/-- Reads a source; the answer is its root element. -/
def parse (source : String) : Except Fault Element :=
  match tokens? source.toList with
  | none => .error .malformed
  | some tokens => do
    let document ← assemble documentNode [] tokens
    match document.children with
    | [] => .error .malformed
    | root :: _ => .ok root

end Dialect.Markup

import Dialect.Proofs.Markup.Rendering
import Dialect.Schema.Document

/-!
# Lines do not matter

Nothing that a schema defines depends on the lines its elements stand on: trees that are equal but
for their lines are one document (`Document.ofElement_eq_of_unlined`).
-/

namespace Dialect.Markup.Element

variable (e : Element) (name tag : String)

@[simp]
theorem name_unlined : e.unlined.name = e.name := by
  cases e
  rfl

/-- Attributes do not know the lines of elements. -/
@[simp]
theorem attribute?_unlined : e.unlined.attribute? name = e.attribute? name := by
  cases e
  rfl

/-- The line of a text is not that of its element. -/
@[simp]
theorem lineOfText_unlined : e.unlined.lineOfText = e.lineOfText := by
  cases e
  rfl

/-- Forgetting lines goes child by child. -/
theorem children_unlined : e.unlined.children = e.children.map unlined := by
  cases e
  exact unlinedAll_eq_map _

/-- Children are found by their tags, and not by their lines. -/
@[simp]
theorem childrenNamed_unlined :
    e.unlined.childrenNamed tag = (e.childrenNamed tag).map unlined := by
  rw [childrenNamed, children_unlined, List.filter_map]
  simp only [Function.comp_def, name_unlined]
  rfl

/-- The text of a child is found whatever line the child is on. -/
@[simp]
theorem childText?_unlined : e.unlined.childText? tag = e.childText? tag := by
  rw [childText?, child?, children_unlined, List.find?_map, Option.map_map]
  simp only [Function.comp_def, name_unlined, lineOfText_unlined]
  rfl

end Dialect.Markup.Element

namespace Dialect.Schema

open Dialect.Markup (Element)

variable (e : Element) (name : String)

/-- What is made of elements without regard to lines is made of all of them so. -/
theorem mapM_unlined {ε β : Type} {f : Element → Except ε β} (hf : ∀ e, f e.unlined = f e)
    (elements : List Element) : (elements.map Element.unlined).mapM f = elements.mapM f := by
  induction elements with
  | nil => rfl
  | cons e rest ih => rw [List.map_cons, List.mapM_cons, List.mapM_cons, hf, ih]

/-- A required attribute is found, or missed, whatever the line is. -/
@[simp]
theorem required_unlined (key described : String) :
    required e.unlined key described = required e key described := by
  rw [required, required, Element.attribute?_unlined]

/-- A field is compiled alike wherever it stands. -/
theorem Field.ofElement_unlined (message : String) :
    Field.ofElement message e.unlined = Field.ofElement message e := by
  simp only [Field.ofElement, required_unlined, Element.lineOfText_unlined]

/-- A message is compiled alike wherever it stands. -/
theorem Message.ofElement_unlined : Message.ofElement e.unlined = Message.ofElement e := by
  simp only [Message.ofElement, required_unlined, Element.name_unlined,
    Element.childrenNamed_unlined, Element.childText?_unlined,
    mapM_unlined fun e => Field.ofElement_unlined e _]

/-- An entry is compiled alike wherever it stands. -/
theorem Entry.ofElement_unlined (next : Int) :
    Entry.ofElement name next e.unlined = Entry.ofElement name next e := by
  simp only [Entry.ofElement, required_unlined, Element.attribute?_unlined,
    Element.childText?_unlined]

/-- Entries are compiled alike wherever they stand. -/
theorem entriesOfElements_unlined (elements : List Element) (next : Int) :
    entriesOfElements name next (elements.map Element.unlined) =
      entriesOfElements name next elements := by
  induction elements generalizing next with
  | nil => rfl
  | cons e rest ih => simp only [List.map_cons, entriesOfElements, Entry.ofElement_unlined, ih]

/-- An enumeration is compiled alike wherever it stands. -/
theorem Enumeration.ofElement_unlined :
    Enumeration.ofElement e.unlined = Enumeration.ofElement e := by
  simp only [Enumeration.ofElement, required_unlined, Element.name_unlined,
    Element.childrenNamed_unlined, Element.childText?_unlined, entriesOfElements_unlined]

namespace Document

variable (root : Element)

/-- The messages of a tree do not depend on lines. -/
theorem map_messageElements_unlined :
    (messageElements root.unlined).map Message.ofElement =
      (messageElements root).map Message.ofElement := by
  simp only [messageElements, Element.childrenNamed_unlined, List.flatMap_map, List.map_flatMap,
    List.map_map, Function.comp_def, Message.ofElement_unlined]

/-- The enumerations of a tree do not depend on lines. -/
theorem map_enumerationElements_unlined :
    (enumerationElements root.unlined).map Enumeration.ofElement =
      (enumerationElements root).map Enumeration.ofElement := by
  simp only [enumerationElements, Element.childrenNamed_unlined, List.flatMap_map,
    List.map_flatMap, List.map_map, Function.comp_def, Enumeration.ofElement_unlined]

/-- Compiling a document pays no regard to lines. -/
theorem ofElement_unlined (workers : Nat) :
    ofElement name root.unlined workers = ofElement name root workers := by
  simp only [ofElement, Work.fanOut_eq_map, map_messageElements_unlined,
    map_enumerationElements_unlined]

variable {root} {root' : Element}

/-- Trees that are equal but for their lines are one document, however many workers compile it. -/
theorem ofElement_eq_of_unlined (h : root.unlined = root'.unlined) (workers workers' : Nat) :
    ofElement name root workers = ofElement name root' workers' := by
  rw [← ofElement_unlined, h, ofElement_unlined]
  simp only [ofElement, Work.fanOut_eq_map]

end Document

end Dialect.Schema

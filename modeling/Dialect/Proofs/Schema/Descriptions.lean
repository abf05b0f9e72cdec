import Dialect.Proofs.Schema.Acceptance
import Dialect.Proofs.Schema.Isolation
import Dialect.Proofs.Schema.Numbering

/-!
# Descriptions

Messages, their fields, enumerations and their entries are described by texts of the schema. There
are four ways for a text to become a description, and all of them put it on one line
(`Message.exists_of_mem_descriptions`, `Enumeration.exists_of_mem_descriptions`).
-/

namespace Dialect.Schema

open Dialect.Markup (Element)

/-! ## Messages -/

/-- The field without its description. -/
def Field.undescribed (f : Field) : Field := { f with description := "" }

namespace Message

/-- The description of the message, if there is one, and those of its fields. -/
def descriptions (m : Message) : List String :=
  m.description.toList ++ m.fields.map Field.description

/-- The message without its descriptions. -/
def undescribed (m : Message) : Message :=
  { m with description := none, fields := m.fields.map Field.undescribed }

variable {e : Element} {m : Message} {t : String}

/-- Descriptions take no room in a payload. -/
theorem payloadLength_undescribed (m : Message) :
    m.undescribed.payloadLength = m.payloadLength := by
  unfold payloadLength undescribed
  rw [List.foldr_map]
  rfl

/-- Descriptions are not part of what sender and receiver agree on. -/
theorem code_undescribed (m : Message) : m.undescribed.code = m.code := by
  unfold code compatibilityCode layoutBytes undescribed
  rw [List.flatMap_map]
  rfl

/-- What describes a message or a field of it is a text on one line. -/
theorem exists_of_mem_descriptions (h : Message.ofElement e = .ok m) (ht : t ∈ m.descriptions) :
    ∃ s, t = Text.oneLine s := by
  rcases List.mem_append.mp ht with ht | ht
  · rw [Option.mem_toList, (Message.ofElement_eq_ok_iff.mp h).description,
      Option.map_eq_some_iff] at ht
    obtain ⟨child, -, rfl⟩ := ht
    exact ⟨child.text, rfl⟩
  · obtain ⟨f, hf, rfl⟩ := List.mem_map.mp ht
    obtain ⟨child, -, hchild⟩ := exists_ofElement_of_mem_fields h hf
    exact ⟨child.text, (Field.ofElement_eq_ok_iff.mp hchild).description⟩

end Message

/-! ## Enumerations -/

/-- The entry without its description. -/
def Entry.undescribed (e : Entry) : Entry := { e with description := none }

namespace Enumeration

/-- The description of the enumeration, if there is one, and those of its entries. -/
def descriptions (x : Enumeration) : List String :=
  x.description.toList ++ x.entries.filterMap Entry.description

/-- The enumeration without its descriptions. -/
def undescribed (x : Enumeration) : Enumeration :=
  { x with description := none, entries := x.entries.map Entry.undescribed }

variable {e : Element} {x : Enumeration} {t : String}

/-- Each entry of an enumeration is defined by an element, behind those in front of it. -/
theorem DefinedBy.exists_of_mem_entries (h : DefinedBy e x) {entry : Entry}
    (hentry : entry ∈ x.entries) : ∃ earlier child, Entry.DefinedBy earlier child entry := by
  obtain ⟨i, hi, rfl⟩ := List.getElem_of_mem hentry
  have hchild : i < (e.childrenNamed "entry").length := h.count ▸ hi
  have hsplit := List.take_append_drop i (e.childrenNamed "entry")
  rw [List.drop_eq_getElem_cons hchild] at hsplit
  obtain ⟨found, hfound, hdefined⟩ := h.entries _ _ _ hsplit.symm
  rw [List.length_take_of_le (Nat.le_of_lt hchild), List.getElem?_eq_getElem hi] at hfound
  obtain rfl := Option.some.inj hfound
  exact ⟨_, _, hdefined⟩

/-- What describes an enumeration or an entry of it is a text on one line. -/
theorem exists_of_mem_descriptions (h : Enumeration.ofElement e = .ok x)
    (ht : t ∈ x.descriptions) : ∃ s, t = Text.oneLine s := by
  have hdefined := Enumeration.ofElement_eq_ok_iff.mp h
  rcases List.mem_append.mp ht with ht | ht
  · rw [Option.mem_toList, hdefined.description, Option.map_eq_some_iff] at ht
    obtain ⟨child, -, rfl⟩ := ht
    exact ⟨child.text, rfl⟩
  · obtain ⟨entry, hentry, ht⟩ := List.mem_filterMap.mp ht
    obtain ⟨earlier, child, hchild⟩ := hdefined.exists_of_mem_entries hentry
    rw [hchild.description, Option.map_eq_some_iff] at ht
    obtain ⟨description, -, rfl⟩ := ht
    exact ⟨description.text, rfl⟩

end Enumeration

/-! ## Documents -/

variable {name source : String} {workers : Nat} {d : Document}

/-- Every message of a document is defined by an element. -/
theorem Document.exists_of_mem_messages (h : ofSource name source workers = .ok d) {m : Message}
    (hm : m ∈ d.messages) : ∃ e, Message.ofElement e = .ok m := by
  obtain ⟨root, -, hroot⟩ := bind_eq_ok_iff.mp h
  obtain rfl := Except.ok.inj hroot
  rw [messages_ofElement] at hm
  obtain ⟨e, -, he⟩ := exists_ofElement_of_mem_intake root hm
  exact ⟨e, he⟩

/-- Every enumeration of a document is defined by an element. -/
theorem Document.exists_of_mem_enumerations (h : ofSource name source workers = .ok d)
    {x : Enumeration} (hx : x ∈ d.enumerations) : ∃ e, Enumeration.ofElement e = .ok x := by
  obtain ⟨root, -, hroot⟩ := bind_eq_ok_iff.mp h
  obtain rfl := Except.ok.inj hroot
  rw [enumerations_ofElement, mem_successes_iff] at hx
  obtain ⟨e, -, he⟩ := List.mem_map.mp hx
  exact ⟨e, he⟩

end Dialect.Schema

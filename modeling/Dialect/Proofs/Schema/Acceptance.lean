import Dialect.Proofs.Schema.ClassOrder
import Dialect.Proofs.Schema.TypeSpec

/-!
# Which elements define messages

`Message.DefinedBy` says what message an element defines, in terms of its attributes, its children
and their texts, and `Message.HasFault` what the first of its faults is. Compiling an element finds
the one or the other. Elements that define a message are those that are well-formed (`IsMessage`): a
name, an id, fields with a name and a type, and no two fields of one name.
-/

namespace Dialect.Schema

open Dialect.Markup (Element)
open Dialect.Text (IsNumeral)

/-! ## Fields -/

namespace Field

/-- The element declares the field: its attributes give the name and the type, its text describes
it. -/
structure DeclaredBy (e : Element) (f : Field) : Prop where
  schemaName : e.attribute? "name" = some f.schemaName
  name : f.name = Text.lower f.schemaName
  type : ∃ raw, e.attribute? "type" = some raw ∧
    TypeSpec.Spells (Text.trim raw.toList) ⟨f.type, f.arity⟩
  description : f.description = Text.oneLine e.text

/-- The first fault of an element as a field of the given message: no name, no type, or a type that
is not well-formed. -/
inductive HasFault (message : String) (e : Element) : Fault → Prop
  | unnamed (h : e.attribute? "name" = none) :
      HasFault message e (.missingAttribute s!"field of {message}" "name")
  | untyped {name : String} (hname : e.attribute? "name" = some name)
      (h : e.attribute? "type" = none) :
      HasFault message e (.missingAttribute s!"field {message}.{name}" "type")
  | mistyped {name raw : String} {fault : Fault} (hname : e.attribute? "name" = some name)
      (hraw : e.attribute? "type" = some raw)
      (h : TypeSpec.HasFault message name (Text.trim raw.toList) fault) :
      HasFault message e fault

variable {message : String} {e : Element} {f : Field} {fault : Fault}

/-- Compiling an element gives a field exactly if the element declares it. -/
theorem ofElement_eq_ok_iff : Field.ofElement message e = .ok f ↔ DeclaredBy e f := by
  constructor
  · intro h
    obtain ⟨name, raw, spec, hname, hraw, hspec, rfl⟩ := exists_declare_of_ofElement h
    exact ⟨hname, rfl, ⟨raw, hraw, TypeSpec.parse_eq_ok_iff.mp hspec⟩, rfl⟩
  · rintro ⟨hname, hlower, ⟨raw, hraw, hspells⟩, hdescription⟩
    have hf : Field.declare f.schemaName f.type f.arity e.lineOfText = f := by
      rw [Field.declare, ← hlower, Element.lineOfText, ← hdescription]
    simp only [Field.ofElement, bind_eq_ok_iff, required_eq_ok_iff, mapError_eq_ok_iff,
      TypeSpec.parse_eq_ok_iff]
    exact ⟨f.schemaName, hname, raw, hraw, ⟨f.type, f.arity⟩, hspells, congrArg Except.ok hf⟩

/-- Compiling an element finds the faults of a field in the order of `HasFault`. -/
theorem ofElement_eq_error_iff :
    Field.ofElement message e = .error fault ↔ HasFault message e fault := by
  simp only [Field.ofElement, bind_eq_error_iff, required_eq_ok_iff, required_eq_error_iff,
    TypeSpec.parse_eq_error_iff]
  constructor
  · rintro (⟨hname, rfl⟩ | ⟨name, hname, ⟨hraw, rfl⟩ | ⟨raw, hraw, h | ⟨spec, -, h⟩⟩⟩)
    · exact .unnamed hname
    · exact .untyped hname hraw
    · exact .mistyped hname hraw h
    · exact absurd h pure_ne_error
  · intro h
    cases h with
    | unnamed h => exact .inl ⟨h, rfl⟩
    | untyped hname h => exact .inr ⟨_, hname, .inl ⟨h, rfl⟩⟩
    | mistyped hname hraw h => exact .inr ⟨_, hname, .inr ⟨_, hraw, .inl h⟩⟩

/-- Fields are compiled if each of the elements declares one. -/
theorem mapM_ofElement_eq_ok_iff {es : List Element} {declared : List Field} :
    es.mapM (Field.ofElement message) = .ok declared ↔ List.Forall₂ DeclaredBy es declared := by
  simp only [mapM_eq_ok_iff, ofElement_eq_ok_iff]

/-- Fields fail for the first of the elements that has a fault. -/
theorem mapM_ofElement_eq_error_iff {es : List Element} :
    es.mapM (Field.ofElement message) = .error fault ↔ FirstFault (HasFault message) es fault := by
  simp only [mapM_eq_error_iff, ofElement_eq_error_iff]

end Field

/-! ## Messages -/

/-- The text is one or more decimal digits of a number that an id may be. -/
def IsId (s : List Char) (id : UInt8) : Prop := IsNumeral 10 s id.toNat ∧ id.toNat ≤ 254

/-- An id is read exactly from the digits of a number that is not too large. -/
theorem parseId?_eq_some_iff {raw : String} {id : UInt8} :
    parseId? raw = some id ↔ IsId (Text.trim raw.toList) id := by
  simp only [parseId?, Option.map_eq_some_iff, Option.filter_eq_some_iff, decide_eq_true_iff,
    Text.numeral?_eq_some_iff, IsId]
  constructor
  · rintro ⟨n, ⟨hn, hle⟩, rfl⟩
    have hle : n ≤ 254 := hle
    rw [UInt8.toNat_ofNat', Nat.mod_eq_of_lt (by omega)]
    exact ⟨hn, hle⟩
  · rintro ⟨hid, hle⟩
    exact ⟨id.toNat, ⟨hid, hle⟩, UInt8.ofNat_toNat⟩

/-- No id is read exactly where there is none. -/
theorem parseId?_eq_none_iff {raw : String} :
    parseId? raw = none ↔ ∀ id, ¬ IsId (Text.trim raw.toList) id := by
  rw [Option.eq_none_iff_forall_ne_some]
  exact forall_congr' fun id => not_congr parseId?_eq_some_iff

namespace Message

/-- The element defines the message: its attributes give the name and the id, the first of its
children that is a description describes it, and its fields are those that its other children
declare, all of different names, the widest class in front. -/
structure DefinedBy (e : Element) (m : Message) : Prop where
  name : e.attribute? "name" = some m.name
  id : ∃ raw, e.attribute? "id" = some raw ∧ IsId (Text.trim raw.toList) m.id
  fields : ∃ declared, List.Forall₂ Field.DeclaredBy (e.childrenNamed "field") declared ∧
    (declared.map Field.name).Nodup ∧ m.fields = classByClass declared
  description : m.description = (e.child? "description").map fun child => Text.oneLine child.text

/-- The first fault of an element as a message: no name, no id, no valid id, then the first fault of
the first field that has one, then the name of the first field that repeats one. -/
inductive HasFault (e : Element) : Fault → Prop
  | unnamed (h : e.attribute? "name" = none) : HasFault e (.missingAttribute e.name "name")
  | unnumbered {name : String} (hname : e.attribute? "name" = some name)
      (h : e.attribute? "id" = none) :
      HasFault e (.missingAttribute s!"{e.name} {name}" "id")
  | misnumbered {name raw : String} (hname : e.attribute? "name" = some name)
      (hraw : e.attribute? "id" = some raw) (h : ∀ id, ¬ IsId (Text.trim raw.toList) id) :
      HasFault e (.invalidId name raw)
  | field {name raw : String} {id : UInt8} {fault : Fault}
      (hname : e.attribute? "name" = some name) (hraw : e.attribute? "id" = some raw)
      (hid : IsId (Text.trim raw.toList) id)
      (h : FirstFault (Field.HasFault name) (e.childrenNamed "field") fault) : HasFault e fault
  | repeated {name raw : String} {id : UInt8} {front back : List Field} {f : Field}
      (hname : e.attribute? "name" = some name) (hraw : e.attribute? "id" = some raw)
      (hid : IsId (Text.trim raw.toList) id)
      (hdeclared : List.Forall₂ Field.DeclaredBy (e.childrenNamed "field") (front ++ f :: back))
      (hfront : (front.map Field.name).Nodup) (h : f.name ∈ front.map Field.name) :
      HasFault e (.duplicateField name f.name)

variable {e : Element} {m : Message} {fault : Fault}

/-- Compiling an element gives a message exactly if the element defines it. -/
theorem ofElement_eq_ok_iff : Message.ofElement e = .ok m ↔ DefinedBy e m := by
  simp only [Message.ofElement, bind_eq_ok_iff, required_eq_ok_iff]
  constructor
  · rintro ⟨name, hname, raw, hraw, h⟩
    cases hid : parseId? raw with
    | none => simp [hid] at h
    | some id =>
      rw [hid] at h
      obtain ⟨declared, hdeclared, hlayout⟩ := bind_eq_ok_iff.mp h
      obtain ⟨hnodup, rfl⟩ := layOut_eq_ok_iff.mp hlayout
      exact ⟨hname, ⟨raw, hraw, parseId?_eq_some_iff.mp hid⟩, ⟨declared,
        Field.mapM_ofElement_eq_ok_iff.mp hdeclared, hnodup, wireOrder_eq declared⟩, rfl⟩
  · obtain ⟨id, name, description, fields⟩ := m
    rintro ⟨hname, ⟨raw, hraw, hid⟩, ⟨declared, hdeclared, hnodup, hfields⟩, hdescription⟩
    refine ⟨name, hname, raw, hraw, ?_⟩
    rw [parseId?_eq_some_iff.mpr hid]
    refine bind_eq_ok_iff.mpr ⟨declared, Field.mapM_ofElement_eq_ok_iff.mpr hdeclared, ?_⟩
    obtain rfl : fields = wireOrder declared := hfields.trans (wireOrder_eq declared).symm
    obtain rfl : description = e.childText? "description" := hdescription
    exact layOut_eq_ok_iff.mpr ⟨hnodup, rfl⟩

/-- Compiling an element goes through its faults in the order of `HasFault`. -/
theorem ofElement_eq_error_iff : Message.ofElement e = .error fault ↔ HasFault e fault := by
  -- a step fails, and the steps in front of it have succeeded
  simp only [Message.ofElement, bind_eq_error_iff, required_eq_ok_iff, required_eq_error_iff]
  constructor
  · rintro (⟨hname, rfl⟩ | ⟨name, hname, ⟨hraw, rfl⟩ | ⟨raw, hraw, h⟩⟩)
    · exact .unnamed hname
    · exact .unnumbered hname hraw
    · cases hid : parseId? raw with
      | none =>
        rw [hid] at h
        obtain rfl := Except.error.inj h
        exact .misnumbered hname hraw (parseId?_eq_none_iff.mp hid)
      | some id =>
        rw [hid] at h
        have hid := parseId?_eq_some_iff.mp hid
        rcases bind_eq_error_iff.mp h with h | ⟨declared, hdeclared, h⟩
        · exact .field hname hraw hid (Field.mapM_ofElement_eq_error_iff.mp h)
        · obtain ⟨front, f, back, rfl, hfront, hrepeat, rfl⟩ := layOut_eq_error_iff.mp h
          have hfields := Field.mapM_ofElement_eq_ok_iff.mp hdeclared
          exact .repeated hname hraw hid hfields hfront hrepeat
  · intro h
    cases h with
    | unnamed h => exact .inl ⟨h, rfl⟩
    | unnumbered hname h => exact .inr ⟨_, hname, .inl ⟨h, rfl⟩⟩
    | misnumbered hname hraw h =>
      refine .inr ⟨_, hname, .inr ⟨_, hraw, ?_⟩⟩
      rw [parseId?_eq_none_iff.mpr h]
    | field hname hraw hid h =>
      refine .inr ⟨_, hname, .inr ⟨_, hraw, ?_⟩⟩
      rw [parseId?_eq_some_iff.mpr hid]
      exact bind_eq_error_iff.mpr (.inl (Field.mapM_ofElement_eq_error_iff.mpr h))
    | repeated hname hraw hid hdeclared hfront h =>
      refine .inr ⟨_, hname, .inr ⟨_, hraw, ?_⟩⟩
      rw [parseId?_eq_some_iff.mpr hid]
      refine bind_eq_error_iff.mpr (.inr ⟨_, Field.mapM_ofElement_eq_ok_iff.mpr hdeclared, ?_⟩)
      exact layOut_eq_error_iff.mpr ⟨_, _, _, rfl, hfront, h, rfl⟩

end Message

/-! ## Well-formed elements -/

/-- The element is a well-formed message: it has a name and the decimal digits of a number up to 254
for its id, its fields have names and well-formed types, and no two of the names are the same in
lower case. -/
structure IsMessage (e : Element) : Prop where
  named : ∃ name, e.attribute? "name" = some name
  numbered : ∃ raw n, e.attribute? "id" = some raw ∧ IsNumeral 10 (Text.trim raw.toList) n ∧ n ≤ 254
  fields : ∀ child ∈ e.childrenNamed "field", (∃ name, child.attribute? "name" = some name) ∧
    ∃ raw spec, child.attribute? "type" = some raw ∧ TypeSpec.Spells (Text.trim raw.toList) spec
  distinct : (((e.childrenNamed "field").filterMap (·.attribute? "name")).map Text.lower).Nodup

/-- An element declares a field if it has a name, and a type that is spelt correctly. -/
theorem Field.exists_declaredBy_iff {e : Element} :
    (∃ f, Field.DeclaredBy e f) ↔ (∃ name, e.attribute? "name" = some name) ∧
      ∃ raw spec, e.attribute? "type" = some raw ∧
        TypeSpec.Spells (Text.trim raw.toList) spec := by
  constructor
  · rintro ⟨f, hname, -, ⟨raw, hraw, hspells⟩, -⟩
    exact ⟨⟨_, hname⟩, raw, _, hraw, hspells⟩
  · rintro ⟨⟨name, hname⟩, raw, spec, hraw, hspells⟩
    exact ⟨.declare name spec.type spec.arity e.lineOfText, hname, rfl, ⟨raw, hraw, hspells⟩, rfl⟩

/-- The names of declared fields are those that the elements give them, in lower case. -/
theorem Field.map_name_of_declaredBy {es : List Element} {declared : List Field}
    (h : List.Forall₂ Field.DeclaredBy es declared) :
    declared.map Field.name = (es.filterMap (·.attribute? "name")).map Text.lower := by
  induction h with
  | nil => rfl
  | @cons e f es declared hf _ ih =>
    rw [List.map_cons, List.filterMap_cons, hf.schemaName, List.map_cons, ← hf.name, ih]

/-- An element defines a message exactly under the conditions of `IsMessage`. -/
theorem Message.exists_definedBy_iff {e : Element} :
    (∃ m, Message.DefinedBy e m) ↔ IsMessage e := by
  constructor
  · rintro ⟨m, hname, ⟨raw, hraw, hid, hle⟩, ⟨declared, hdeclared, hnodup, -⟩, -⟩
    refine ⟨⟨_, hname⟩, ⟨raw, _, hraw, hid, hle⟩, fun child hchild => ?_, ?_⟩
    · obtain ⟨f, -, hf⟩ := exists_of_forall₂_mem hdeclared.flip hchild
      exact Field.exists_declaredBy_iff.mp ⟨f, hf⟩
    · rwa [← Field.map_name_of_declaredBy hdeclared]
  · rintro ⟨⟨name, hname⟩, ⟨raw, n, hraw, hn, hle⟩, hfields, hdistinct⟩
    obtain ⟨declared, hdeclared⟩ := exists_forall₂ fun child hchild =>
      Field.exists_declaredBy_iff.mpr (hfields child hchild)
    rw [← Field.map_name_of_declaredBy hdeclared] at hdistinct
    refine ⟨⟨UInt8.ofNat n, name, _, _⟩, hname, ⟨raw, hraw, ?_⟩,
      ⟨declared, hdeclared, hdistinct, rfl⟩, rfl⟩
    rw [IsId, UInt8.toNat_ofNat', Nat.mod_eq_of_lt (by omega)]
    exact ⟨hn, hle⟩

/-- **Which elements are accepted as messages.** An element defines a message exactly if it is
well-formed, and then its name, its id, its description and its fields are those that it gives, the
fields in the order of their classes. Otherwise the fault that is reported is the first one: the
name, the id, whether the id is a number up to 254, then the fields in the order of the element,
each with its name, its type and whether the type is well-formed, and at last repeated names. -/
theorem ofElement_decides_message (e : Element) :
    (∀ m, Message.ofElement e = .ok m ↔ Message.DefinedBy e m) ∧
    (∀ fault, Message.ofElement e = .error fault ↔ Message.HasFault e fault) ∧
    ((∃ m, Message.ofElement e = .ok m) ↔ IsMessage e) := by
  refine ⟨fun m => Message.ofElement_eq_ok_iff, fun fault => Message.ofElement_eq_error_iff, ?_⟩
  simp only [Message.ofElement_eq_ok_iff, Message.exists_definedBy_iff]

/-- The id is looked at before the fields are, and these before names are compared. -/
example :
    let field (attributes : List (String × String)) : Element := ⟨"field", attributes, [], "", 1⟩
    let fields := [field [("name", "a"), ("type", "char")], field [("name", "A")]]
    let message (id : String) : Element :=
      ⟨"message", [("name", "M"), ("id", id)], fields, "", 1⟩
    Message.ofElement (message "255") = .error (.invalidId "M" "255") ∧
      Message.ofElement (message " 007 ") = .error (.missingAttribute "field M.A" "type") := by
  exact ⟨by rfl, by rfl⟩

end Dialect.Schema

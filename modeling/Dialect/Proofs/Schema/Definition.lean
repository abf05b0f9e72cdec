import Dialect.Proofs.Outcome
import Dialect.Proofs.Schema.WireOrder
import Dialect.Schema.Definition

/-!
# What a schema can define

An element defines a message by laying out the fields its children declare. A type specification
never gives a field without elements, so no message of a schema has one; only fields declared by
other means may.
-/

namespace Dialect.Schema

open Dialect.Markup (Element)

namespace TypeSpec

/-- The number of elements that the text behind an opening bracket declares, one where there is no
bracket. -/
def declared? : Option (List Char) → Option Nat
  | none => some 1
  | some inside => length? inside

/-- A declared number of elements is not zero. -/
theorem declared?_pos {bracket : Option (List Char)} {n : Nat} (h : declared? bracket = some n) :
    0 < n := by
  cases bracket with
  | none =>
    obtain rfl := Option.some.inj h
    exact Nat.one_pos
  | some inside =>
    rw [declared?, length?, Option.filter_eq_some_iff] at h
    exact of_decide_eq_true h.2

/-- With the number of elements at hand, what is left to do does not depend on the brackets. -/
theorem parseTrimmed_eq (s : List Char) :
    parseTrimmed s =
      (declared? (splitBracket s).2).elim (.error .malformedArray) fun n =>
        (Primitive.ofName? (String.ofList (splitBracket s).1)).elim
          (.error (.unknownType (String.ofList (splitBracket s).1))) fun type =>
            if n < 256 then .ok ⟨type, UInt8.ofNat n⟩
            else .error (.arityOverflow (min n reportLimit)) := by
  rw [parseTrimmed]
  rcases splitBracket s with ⟨base, _ | inside⟩
  · dsimp only
    cases Primitive.ofName? (String.ofList base) <;> rfl
  · dsimp only [declared?]
    cases length? inside with
    | none => rfl
    | some n => cases Primitive.ofName? (String.ofList base) <;> rfl

/-- A text is a type specification exactly if it names a primitive and declares fewer than 256
elements. -/
theorem parseTrimmed_eq_ok_iff {s : List Char} {spec : TypeSpec} :
    parseTrimmed s = .ok spec ↔
      Primitive.ofName? (String.ofList (splitBracket s).1) = some spec.type ∧
        ∃ n < 256, declared? (splitBracket s).2 = some n ∧ spec.arity = UInt8.ofNat n := by
  obtain ⟨type, arity⟩ := spec
  rw [parseTrimmed_eq]
  cases declared? (splitBracket s).2 with
  | none => simp
  | some n =>
    cases Primitive.ofName? (String.ofList (splitBracket s).1) with
    | none => simp
    | some found =>
      by_cases hsmall : n < 256
      · simp [hsmall, eq_comm]
      · simp [hsmall]

end TypeSpec

/-- A number that fits into a byte and is not zero is no zero byte. -/
theorem ofNat_ne_zero {n : Nat} (hpos : 0 < n) (hsmall : n < 256) : UInt8.ofNat n ≠ 0 := by
  intro hzero
  have hmod := congrArg UInt8.toNat hzero
  rw [UInt8.toNat_ofNat', UInt8.toNat_zero, Nat.mod_eq_of_lt hsmall] at hmod
  omega

/-- A type specification gives at least one element. -/
theorem TypeSpec.arity_ne_zero_of_parse {s : String} {spec : TypeSpec}
    (h : TypeSpec.parse s = .ok spec) : spec.arity ≠ 0 := by
  obtain ⟨-, n, hsmall, hdeclared, harity⟩ := parseTrimmed_eq_ok_iff.mp h
  rw [harity]
  exact ofNat_ne_zero (declared?_pos hdeclared) hsmall

/-- A required attribute is found where it is. -/
theorem required_eq_ok_iff {e : Element} {key described value : String} :
    required e key described = .ok value ↔ e.attribute? key = some value := by
  rw [required]
  rcases e.attribute? key with _ | found <;> simp

/-- A required attribute that is missing is reported as such. -/
theorem required_eq_error_iff {e : Element} {key described : String} {fault : Fault} :
    required e key described = .error fault ↔
      e.attribute? key = none ∧ fault = .missingAttribute described key := by
  rw [required]
  rcases e.attribute? key with _ | found <;> simp [eq_comm]

/-- An element declares a field by its attributes and its text. -/
theorem Field.exists_declare_of_ofElement {message : String} {e : Element} {f : Field}
    (h : Field.ofElement message e = .ok f) :
    ∃ name raw spec, e.attribute? "name" = some name ∧ e.attribute? "type" = some raw ∧
      TypeSpec.parse raw = .ok spec ∧ f = .declare name spec.type spec.arity e.lineOfText := by
  rw [Field.ofElement] at h
  obtain ⟨name, hname, h⟩ := bind_eq_ok_iff.mp h
  obtain ⟨raw, hraw, h⟩ := bind_eq_ok_iff.mp h
  obtain ⟨spec, hspec, h⟩ := bind_eq_ok_iff.mp h
  exact ⟨name, raw, spec, required_eq_ok_iff.mp hname, required_eq_ok_iff.mp hraw,
    mapError_eq_ok_iff.mp hspec, (Except.ok.inj h).symm⟩

/-- A declared field has at least one element. -/
theorem Field.arity_ne_zero_of_ofElement {message : String} {e : Element} {f : Field}
    (h : Field.ofElement message e = .ok f) : f.arity ≠ 0 := by
  obtain ⟨name, raw, spec, -, -, hspec, rfl⟩ := exists_declare_of_ofElement h
  exact TypeSpec.arity_ne_zero_of_parse hspec

/-- An element that defines a message does so by the fields its children declare. -/
theorem Message.exists_layOut_of_ofElement {e : Element} {m : Message}
    (h : Message.ofElement e = .ok m) :
    ∃ declared, (e.childrenNamed "field").mapM (Field.ofElement m.name) = .ok declared ∧
      Message.layOut m.id m.name (e.childText? "description") declared = .ok m := by
  rw [Message.ofElement] at h
  obtain ⟨name, -, h⟩ := bind_eq_ok_iff.mp h
  obtain ⟨raw, -, h⟩ := bind_eq_ok_iff.mp h
  split at h
  · exact absurd h (by simp)
  · obtain ⟨declared, hdeclared, h⟩ := bind_eq_ok_iff.mp h
    obtain ⟨-, hm⟩ := Message.layOut_eq_ok_iff.mp h
    subst hm
    exact ⟨declared, hdeclared, h⟩

/-- The id that a text denotes is one of the table. -/
theorem parseId?_le {raw : String} {id : UInt8} (h : parseId? raw = some id) : id ≤ maxId := by
  rw [parseId?, Option.map_eq_some_iff] at h
  obtain ⟨n, hn, rfl⟩ := h
  have hle : n ≤ maxId.toNat := of_decide_eq_true (Option.filter_eq_some_iff.mp hn).2
  rw [UInt8.le_iff_toNat_le, UInt8.toNat_ofNat']
  exact Nat.le_trans (Nat.mod_le n _) hle

/-- A message that an element defines has an id of the table. -/
theorem Message.id_le_of_ofElement {e : Element} {m : Message} (h : Message.ofElement e = .ok m) :
    m.id ≤ maxId := by
  rw [Message.ofElement] at h
  obtain ⟨name, -, h⟩ := bind_eq_ok_iff.mp h
  obtain ⟨raw, -, h⟩ := bind_eq_ok_iff.mp h
  split at h
  · exact absurd h (by simp)
  · next id hid =>
    obtain ⟨declared, -, h⟩ := bind_eq_ok_iff.mp h
    obtain ⟨-, rfl⟩ := Message.layOut_eq_ok_iff.mp h
    exact parseId?_le hid

/-- Every field of a message is declared by a child of the element that defines the message. -/
theorem Message.exists_ofElement_of_mem_fields {e : Element} {m : Message}
    (h : Message.ofElement e = .ok m) {f : Field} (hf : f ∈ m.fields) :
    ∃ child ∈ e.childrenNamed "field", Field.ofElement m.name child = .ok f := by
  obtain ⟨declared, hdeclared, hm⟩ := Message.exists_layOut_of_ofElement h
  exact exists_of_mem_mapM hdeclared ((Message.mem_fields_of_layOut hm).mp hf)

/-- No field of a message that an element defines is without elements. -/
theorem Message.arity_ne_zero_of_ofElement {e : Element} {m : Message}
    (h : Message.ofElement e = .ok m) : ∀ f ∈ m.fields, f.arity ≠ 0 := by
  intro f hf
  obtain ⟨child, -, hchild⟩ := exists_ofElement_of_mem_fields h hf
  exact Field.arity_ne_zero_of_ofElement hchild

end Dialect.Schema

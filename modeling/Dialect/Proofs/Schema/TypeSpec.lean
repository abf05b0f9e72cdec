import Dialect.Listing.Message
import Dialect.Proofs.Schema.Definition
import Dialect.Proofs.Text.Blank
import Dialect.Proofs.Text.Numeral

/-!
# The grammar of type specifications

`Spells` says which texts write a specification and `HasFault` what is wrong with all others, so
that every text has one of both (`exists_spells_or_hasFault`). Reading a specification decides
between them and finds the one there is. What a listing prints for the type of a field is again a
specification, of the same type with the same number of elements.
-/

namespace Dialect.Schema

open Dialect.Text (IsNumeral)

/-! ## Names -/

namespace Primitive

/-- A type is found exactly by its own name. -/
theorem ofName?_eq_some_iff {name : List Char} {p : Primitive} :
    ofName? (String.ofList name) = some p ↔ name = p.name.toList := by
  constructor
  · intro h
    have hname : p.name = String.ofList name := by simpa using List.find?_some h
    rw [hname, String.toList_ofList]
  · rintro rfl
    rw [String.ofList_toList]
    exact ofName?_name p

/-- What is the name of no type finds none. -/
theorem ofName?_eq_none {name : List Char} (h : ∀ p : Primitive, name ≠ p.name.toList) :
    ofName? (String.ofList name) = none := by
  cases hfound : ofName? (String.ofList name) with
  | none => rfl
  | some p => exact absurd (ofName?_eq_some_iff.mp hfound) (h p)

/-- The name of a type has no brackets in it, and no blanks. -/
theorem plain_name (p : Primitive) :
    '[' ∉ p.name.toList ∧ ∀ c ∈ p.name.toList, ¬ Text.isBlank c := by
  have hplain : (p.name.toList.all fun c => c != '[' && !Text.isBlank c) = true := by
    cases p with
    | plain w => cases w <;> decide
    | versionMarker => decide
  simp only [List.all_eq_true, Bool.and_eq_true, bne_iff_ne, Bool.not_eq_true'] at hplain
  exact ⟨fun h => (hplain _ h).1 rfl, fun c hc => Bool.eq_false_iff.mp (hplain c hc).2⟩

end Primitive

namespace TypeSpec

/-! ## Brackets -/

theorem splitBracket_cons_of_ne {c : Char} (hc : c ≠ '[') (rest : List Char) :
    splitBracket (c :: rest) = (c :: (splitBracket rest).1, (splitBracket rest).2) := by
  rw [splitBracket]
  exact hc

/-- Without a bracket, a text is not split. -/
theorem splitBracket_of_notMem {s : List Char} (h : '[' ∉ s) : splitBracket s = (s, none) := by
  induction s with
  | nil => rfl
  | cons c rest ih =>
    obtain ⟨hc, hrest⟩ := not_or.mp (mt List.mem_cons.mpr h)
    rw [splitBracket_cons_of_ne (Ne.symm hc), ih hrest]

/-- A text is split at its first opening bracket. -/
theorem splitBracket_append {name : List Char} (h : '[' ∉ name) (inside : List Char) :
    splitBracket (name ++ '[' :: inside) = (name, some inside) := by
  induction name with
  | nil => rfl
  | cons c rest ih =>
    obtain ⟨hc, hrest⟩ := not_or.mp (mt List.mem_cons.mpr h)
    rw [List.cons_append, splitBracket_cons_of_ne (Ne.symm hc), ih hrest]

/-- A bracket is taken off exactly where it closes the text. -/
theorem unclose?_eq_some_iff {s digits : List Char} :
    unclose? s = some digits ↔ s = digits ++ [']'] := by
  induction s generalizing digits with
  | nil => simp [unclose?]
  | cons c rest ih =>
    cases rest with
    | nil => by_cases hc : c = ']' <;> simp [unclose?, hc, List.singleton_eq_append_iff, eq_comm]
    | cons d rest =>
      cases digits with
      | nil => simp [unclose?]
      | cons x digits => simp [unclose?, ih, and_comm]

/-- What follows an opening bracket gives the number of elements of an array: one or more decimal
digits with a closing bracket behind them. No array is without elements. -/
def IsLength (inside : List Char) (n : Nat) : Prop :=
  ∃ digits, inside = digits ++ [']'] ∧ IsNumeral 10 digits n ∧ 0 < n

/-- A number of elements is read exactly from its digits. -/
theorem length?_eq_some_iff {inside : List Char} {n : Nat} :
    length? inside = some n ↔ IsLength inside n := by
  simp only [length?, Option.filter_eq_some_iff, Option.bind_eq_some_iff, unclose?_eq_some_iff,
    Text.numeral?_eq_some_iff, decide_eq_true_iff, IsLength]
  constructor
  · rintro ⟨⟨digits, hinside, hn⟩, hpos⟩
    exact ⟨digits, hinside, hn, hpos⟩
  · rintro ⟨digits, hinside, hn, hpos⟩
    exact ⟨⟨digits, hinside, hn⟩, hpos⟩

/-- What is no number of elements is not read as one. -/
theorem length?_eq_none {inside : List Char} (h : ∀ n, ¬ IsLength inside n) :
    length? inside = none := by
  cases hlength : length? inside with
  | none => rfl
  | some n => exact absurd (length?_eq_some_iff.mp hlength) (h n)

/-! ## Specifications and faults -/

/-- The text writes the specification: the name of the type alone, for one element, or the name with
the number of elements behind it in brackets. -/
def Spells (s : List Char) (spec : TypeSpec) : Prop :=
  s = spec.type.name.toList ∧ spec.arity = 1 ∨
    ∃ inside, s = spec.type.name.toList ++ '[' :: inside ∧ IsLength inside spec.arity.toNat

/-- What is wrong with a text that writes no specification, for a field of a message. The text in
front of the first opening bracket is the name of the type, or all of it where there is none. Faults
of the brackets win over an unknown name, and an unknown name over a length that is too large. -/
inductive HasFault (message field : String) : List Char → Schema.Fault → Prop
  /-- What follows the bracket gives no number of elements. -/
  | brackets {name inside : List Char} (hname : '[' ∉ name) (h : ∀ n, ¬ IsLength inside n) :
      HasFault message field (name ++ '[' :: inside)
        (.malformedArray message field (String.ofList (name ++ '[' :: inside)))
  /-- No type has the name of a single element. -/
  | name {name : List Char} (hname : '[' ∉ name) (h : ∀ p : Primitive, name ≠ p.name.toList) :
      HasFault message field name (.unknownType message field (String.ofList name))
  /-- No type has the name of an array. -/
  | arrayName {name inside : List Char} {n : Nat} (hname : '[' ∉ name) (hn : IsLength inside n)
      (h : ∀ p : Primitive, name ≠ p.name.toList) :
      HasFault message field (name ++ '[' :: inside)
        (.unknownType message field (String.ofList name))
  /-- The number of elements does not fit in a byte. It is reported up to `2 ^ 64 - 1`. -/
  | length (p : Primitive) {inside : List Char} {n : Nat} (hn : IsLength inside n) (h : 255 < n) :
      HasFault message field (p.name.toList ++ '[' :: inside)
        (.arityOverflow message field (min n (2 ^ 64 - 1)))

/-- Every text writes a specification or has a fault. -/
theorem exists_spells_or_hasFault (message field : String) (s : List Char) :
    (∃ spec, Spells s spec) ∨ ∃ fault, HasFault message field s fault := by
  -- the faults in the order in which they are looked for
  by_cases hbracket : '[' ∈ s
  · obtain ⟨name, inside, rfl, hname⟩ := List.eq_append_cons_of_mem hbracket
    by_cases hlength : ∃ n, IsLength inside n
    · obtain ⟨n, hn⟩ := hlength
      by_cases hknown : ∃ p : Primitive, name = p.name.toList
      · obtain ⟨p, rfl⟩ := hknown
        by_cases hsmall : n < 256
        · refine .inl ⟨⟨p, UInt8.ofNat n⟩, .inr ⟨inside, rfl, ?_⟩⟩
          rwa [UInt8.toNat_ofNat', Nat.mod_eq_of_lt hsmall]
        · exact .inr ⟨_, .length p hn (by omega)⟩
      · exact .inr ⟨_, .arrayName hname hn (not_exists.mp hknown)⟩
    · exact .inr ⟨_, .brackets hname (not_exists.mp hlength)⟩
  · by_cases hknown : ∃ p : Primitive, s = p.name.toList
    · obtain ⟨p, hp⟩ := hknown
      exact .inl ⟨⟨p, 1⟩, .inl ⟨hp, rfl⟩⟩
    · exact .inr ⟨_, .name hbracket (not_exists.mp hknown)⟩

/-! ## Reading -/

variable {message field raw : String} {s : List Char} {spec : TypeSpec} {fault : Schema.Fault}

/-- What spells a type is read as the type. -/
theorem parseTrimmed_of_spells (h : Spells s spec) : parseTrimmed s = .ok spec := by
  obtain ⟨hbracket, -⟩ := spec.type.plain_name
  have hname := Primitive.ofName?_eq_some_iff.mpr (rfl : spec.type.name.toList = _)
  rcases h with ⟨rfl, harity⟩ | ⟨inside, rfl, hn⟩
  · refine parseTrimmed_eq_ok_iff.mpr ?_
    rw [splitBracket_of_notMem hbracket]
    exact ⟨hname, 1, by decide, rfl, harity⟩
  · refine parseTrimmed_eq_ok_iff.mpr ?_
    rw [splitBracket_append hbracket]
    exact ⟨hname, spec.arity.toNat, spec.arity.toNat_lt, length?_eq_some_iff.mpr hn, by simp⟩

/-- What spells no type is refused for the first thing that is wrong with it. -/
theorem parse_of_hasFault (h : HasFault message field (Text.trim raw.toList) fault) :
    (parse raw).mapError (Fault.inField message field raw) = .error fault := by
  rw [parse, parseTrimmed_eq]
  -- the fault of broken brackets quotes the trimmed text, and so needs to be told before the cases
  generalize htext : Text.trim raw.toList = s at h
  cases h with
  | brackets hname hlength =>
    rw [splitBracket_append hname, declared?, length?_eq_none hlength, ← htext]
    rfl
  | name hname hunknown =>
    rw [splitBracket_of_notMem hname, declared?, Option.elim_some,
      Primitive.ofName?_eq_none hunknown]
    rfl
  | arrayName hname hn hunknown =>
    rw [splitBracket_append hname, declared?, length?_eq_some_iff.mpr hn, Option.elim_some,
      Primitive.ofName?_eq_none hunknown]
    rfl
  | length p hn hlarge =>
    rw [splitBracket_append p.plain_name.1, declared?, length?_eq_some_iff.mpr hn,
      Option.elim_some, Primitive.ofName?_eq_some_iff.mpr rfl, Option.elim_some,
      if_neg (by omega)]
    rfl

/-- A text is read as the specification that it writes. -/
theorem parse_eq_ok_iff : parse raw = .ok spec ↔ Spells (Text.trim raw.toList) spec := by
  refine ⟨fun h => ?_, parseTrimmed_of_spells⟩
  rcases exists_spells_or_hasFault "" "" (Text.trim raw.toList) with
    ⟨spec', hspells⟩ | ⟨fault, hfault⟩
  · have hread : parse raw = .ok spec' := parseTrimmed_of_spells hspells
    rwa [Except.ok.inj (h.symm.trans hread)]
  · have hread := parse_of_hasFault hfault
    rw [h] at hread
    exact absurd hread (by simp [Except.mapError])

/-- Reading a text reports the fault that it has. -/
theorem parse_eq_error_iff :
    (parse raw).mapError (Fault.inField message field raw) = .error fault ↔
      HasFault message field (Text.trim raw.toList) fault := by
  refine ⟨fun h => ?_, parse_of_hasFault⟩
  rcases exists_spells_or_hasFault message field (Text.trim raw.toList) with
    ⟨spec, hspells⟩ | ⟨fault', hfault⟩
  · rw [parse_eq_ok_iff.mpr hspells] at h
    exact absurd h (by simp [Except.mapError])
  · rwa [Except.error.inj (h.symm.trans (parse_of_hasFault hfault))]

/-! ## Writing -/

/-- An array is written with its number of elements in brackets. -/
theorem toList_text_of_lt (h : 1 < spec.arity) :
    spec.text.toList = spec.type.name.toList ++ '[' :: (spec.arity.toNat.repr.toList ++ [']']) := by
  have htext : spec.text = spec.type.name ++ "[" ++ spec.arity.toNat.repr ++ "]" := if_pos h
  simp [htext]

/-- A scalar is written by its type alone. -/
theorem toList_text_of_not_lt (h : ¬ 1 < spec.arity) :
    spec.text.toList = spec.type.name.toList := by
  rw [text, if_neg h]

/-- What is written for a specification with elements writes this specification. -/
theorem spells_text (h : spec.arity ≠ 0) : Spells spec.text.toList spec := by
  have hpos : 0 < spec.arity.toNat := Nat.pos_of_ne_zero fun hzero => h (UInt8.toNat_inj.mp hzero)
  by_cases hmany : 1 < spec.arity
  · exact .inr ⟨_, toList_text_of_lt hmany, _, rfl, Text.isNumeral_repr _, hpos⟩
  · have hle : spec.arity.toNat ≤ 1 := UInt8.le_iff_toNat_le.mp (UInt8.not_lt.mp hmany)
    exact .inl ⟨toList_text_of_not_lt hmany, UInt8.toNat_inj.mp (Nat.le_antisymm hle hpos)⟩

/-- Nothing is trimmed from what is written for a specification. -/
theorem trim_text (spec : TypeSpec) : Text.trim spec.text.toList = spec.text.toList := by
  refine Text.trim_of_forall fun c hc => ?_
  obtain ⟨-, hname⟩ := spec.type.plain_name
  by_cases hmany : 1 < spec.arity
  · have hdigit : ∀ x ∈ Text.lowerDigits ++ Text.upperDigits, ¬ Text.isBlank x := by
      simp [Text.lowerDigits, Text.upperDigits, Text.isBlank]
    rw [toList_text_of_lt hmany] at hc
    rcases List.mem_append.mp hc with hc | hc
    · exact hname c hc
    rcases List.mem_cons.mp hc with rfl | hc
    · decide
    rcases List.mem_append.mp hc with hc | hc
    · exact hdigit c ((Text.isNumeral_repr _).mem_of_mem hc)
    · rw [List.mem_singleton.mp hc]
      decide
  · rw [toList_text_of_not_lt hmany] at hc
    exact hname c hc

/-- **The grammar of type specifications.** Whatever field of whatever message a text is read for,
it is read as a specification exactly if, blanks around it left out of account, it writes this one:
it is the name of the type, for one element, or that name with the number of elements in brackets,
in one or more decimal digits with any number of zeros in front, the number from 1 to 255.
Otherwise the fault that is reported is the one that the text has: brackets that hold no number of
elements, an unknown name, or a number of elements that is too large, in this order. What a listing
prints for the type of a field with elements is read back as its type and number of elements. -/
theorem parse_grammar (message field raw : String) :
    (∀ spec, (parse raw).mapError (Fault.inField message field raw) = .ok spec ↔
      Spells (Text.trim raw.toList) spec) ∧
    (∀ fault, (parse raw).mapError (Fault.inField message field raw) = .error fault ↔
      HasFault message field (Text.trim raw.toList) fault) ∧
    ∀ f : Field, f.arity ≠ 0 → parse (Listing.typeText f) = .ok ⟨f.type, f.arity⟩ := by
  refine ⟨fun spec => ?_, fun fault => parse_eq_error_iff, fun f hf => ?_⟩
  · rw [mapError_eq_ok_iff, parse_eq_ok_iff]
  · exact parse_eq_ok_iff.mpr (by rw [Listing.typeText, trim_text]; exact spells_text hf)

/-- An array of 255 elements. -/
def sampleArray : Field := .declare "Raw" (.plain .uint16) 255 ""

/-- An array as it is listed, one with blanks around it and zeros in its length, and one with a
bracket too many. -/
theorem parse_grammar_sample :
    sampleArray.arity ≠ 0 ∧ Listing.typeText sampleArray = "uint16_t[255]" ∧
      parse (Listing.typeText sampleArray) = .ok ⟨.plain .uint16, 255⟩ ∧
      (parse " char[007] ").mapError (Fault.inField "M" "f" " char[007] ") =
        .ok ⟨.plain .char, 7⟩ ∧
      (parse " char[3]] ").mapError (Fault.inField "M" "f" " char[3]] ") =
        .error (.malformedArray "M" "f" "char[3]]") := by
  obtain ⟨hread, -, hback⟩ := parse_grammar "M" "f" " char[007] "
  obtain ⟨-, hfault, -⟩ := parse_grammar "M" "f" " char[3]] "
  have hseven : IsLength ['0', '0', '7', ']'] 7 := length?_eq_some_iff.mp (by decide)
  have hnone : length? ['3', ']', ']'] = none := by decide
  have hbroken : ∀ n, ¬ IsLength ['3', ']', ']'] n := fun n hn =>
    Option.some_ne_none n ((length?_eq_some_iff.mpr hn).symm.trans hnone)
  refine ⟨by decide, by rfl, hback sampleArray (by decide), (hread _).mpr ?_, (hfault _).mpr ?_⟩
  · exact .inr ⟨_, by rfl, hseven⟩
  · exact @HasFault.brackets "M" "f" "char".toList _ (by decide) hbroken

end TypeSpec

end Dialect.Schema

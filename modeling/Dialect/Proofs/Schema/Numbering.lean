import Dialect.Proofs.Schema.Definition
import Dialect.Proofs.Text.Numeral

/-!
# The numbers of entries

An entry of an enumeration either gives its number or is given one: the number of entries in front
of it that give none. `Enumeration.DefinedBy` says so of all entries by their places, without a
counter; compiling carries one from entry to entry (`entriesOfElements_eq_ok_iff`). An element that
defines no enumeration has a fault (`Enumeration.HasFault`), and the first one is reported.
-/

namespace Dialect.Schema

open Dialect.Markup (Element)
open Dialect.Text (IsSignedNumeral)

/-! ## Values -/

/-- The text denotes the number: in decimal, or in hexadecimal behind `0x` or `0X`, with at most one
sign in front of the digits. The number is one of sixty-four bits. -/
def IsValue (s : List Char) (v : Int) : Prop :=
  (IsSignedNumeral 10 s v ∨
    ∃ digits, (s = '0' :: 'x' :: digits ∨ s = '0' :: 'X' :: digits) ∧ IsSignedNumeral 16 digits v) ∧
  -2 ^ 63 ≤ v ∧ v < 2 ^ 63

/-- A number is in range if sixty-four bits can hold it with its sign. -/
theorem inInt64_iff {v : Int} : inInt64 v = true ↔ -2 ^ 63 ≤ v ∧ v < 2 ^ 63 := by
  have hmin : Int64.minValue.toInt = -2 ^ 63 := by decide
  have hmax : Int64.maxValue.toInt = 2 ^ 63 - 1 := by decide
  rw [inInt64, Bool.and_eq_true, decide_eq_true_iff, decide_eq_true_iff, hmin, hmax]
  omega

/-- Behind a zero neither `x` nor `X` is a decimal digit. -/
theorem not_isSignedNumeral_marked {c : Char} (hc : c = 'x' ∨ c = 'X') (digits : List Char)
    (v : Int) : ¬ IsSignedNumeral 10 ('0' :: c :: digits) v := by
  intro h
  have hnone : Text.signedNumeral? 10 ('0' :: c :: digits) = none := by
    rcases hc with rfl | rfl <;> rfl
  exact Option.some_ne_none v ((Text.signedNumeral?_eq_some_iff.mpr h).symm.trans hnone)

/-- Reading a value finds the number that the text denotes. -/
theorem parseValue?_eq_some_iff {raw : String} {v : Int} :
    parseValue? raw = some v ↔ IsValue (Text.trim raw.toList) v := by
  simp only [parseValue?, Option.filter_eq_some_iff, inInt64_iff, IsValue]
  refine and_congr_left fun _ => ?_
  split
  · next digits htext =>
    have hdecimal := not_isSignedNumeral_marked (.inl rfl) digits v
    rw [Text.signedNumeral?_eq_some_iff, htext, or_iff_right hdecimal]
    simp
  · next digits htext =>
    have hdecimal := not_isSignedNumeral_marked (.inr rfl) digits v
    rw [Text.signedNumeral?_eq_some_iff, htext, or_iff_right hdecimal]
    simp
  · next hlower hupper =>
    rw [Text.signedNumeral?_eq_some_iff, or_iff_left]
    rintro ⟨digits, htext | htext, -⟩
    · exact hlower digits htext
    · exact hupper digits htext

/-- No value is read exactly where there is none. -/
theorem parseValue?_eq_none_iff {raw : String} :
    parseValue? raw = none ↔ ∀ v, ¬ IsValue (Text.trim raw.toList) v := by
  rw [Option.eq_none_iff_forall_ne_some]
  exact forall_congr' fun v => not_congr parseValue?_eq_some_iff

/-! ## Entries -/

/-- The number of entries among some that give no number. -/
def implicitCount (entries : List Element) : Nat :=
  entries.countP fun e => (e.attribute? "value").isNone

/-- An entry without a value counts. -/
theorem implicitCount_concat_of_none {earlier : List Element} {e : Element}
    (h : e.attribute? "value" = none) :
    implicitCount (earlier ++ [e]) = implicitCount earlier + 1 := by
  simp [implicitCount, List.countP_append, h]

/-- An entry with a value does not count. -/
theorem implicitCount_concat_of_some {earlier : List Element} {e : Element} {raw : String}
    (h : e.attribute? "value" = some raw) :
    implicitCount (earlier ++ [e]) = implicitCount earlier := by
  simp [implicitCount, List.countP_append, h]

namespace Entry

/-- The element defines the entry behind some others: it gives the name, which stands in upper case,
and the number, or else the number is that of the earlier entries that give none. -/
structure DefinedBy (earlier : List Element) (e : Element) (entry : Entry) : Prop where
  name : ∃ name, e.attribute? "name" = some name ∧ entry.name = Text.upper name
  implicit : e.attribute? "value" = none → entry.value = implicitCount earlier
  explicit : ∀ raw, e.attribute? "value" = some raw → IsValue (Text.trim raw.toList) entry.value
  description : entry.description =
    (e.child? "description").map fun child => Text.oneLine child.text

/-- The first fault of an element as an entry of the given enumeration: no name, or a text that
denotes no number. -/
inductive HasFault (enumeration : String) (e : Element) : Fault → Prop
  | unnamed (h : e.attribute? "name" = none) :
      HasFault enumeration e (.missingAttribute s!"entry of {enumeration}" "name")
  | misnumbered {name raw : String} (hname : e.attribute? "name" = some name)
      (hraw : e.attribute? "value" = some raw) (h : ∀ v, ¬ IsValue (Text.trim raw.toList) v) :
      HasFault enumeration e (.invalidValue enumeration name raw)

variable {enumeration : String} {earlier es : List Element} {e : Element} {entry : Entry}
  {next : Int} {fault : Fault}

/-- An entry without a value takes the next number, and the number behind it is next. -/
theorem ofElement_of_implicit (h : e.attribute? "value" = none) :
    Entry.ofElement enumeration next e = (required e "name" s!"entry of {enumeration}").map
      fun name => (⟨Text.upper name, next, e.childText? "description"⟩, next + 1) := by
  simp only [Entry.ofElement, h]
  cases required e "name" s!"entry of {enumeration}" <;> rfl

/-- An entry with a value takes this value, and the next number stays. -/
theorem ofElement_of_explicit {raw : String} (h : e.attribute? "value" = some raw) :
    Entry.ofElement enumeration next e = required e "name" s!"entry of {enumeration}" >>=
      fun name => (parseValue? raw).elim (.error (.invalidValue enumeration name raw)) fun v =>
        .ok (⟨Text.upper name, v, e.childText? "description"⟩, next) := by
  simp only [Entry.ofElement, h]
  cases parseValue? raw <;> rfl

/-- An entry that gives no number takes that of the counter and moves it on; others leave it. -/
theorem ofElement_eq_ok_iff :
    Entry.ofElement enumeration (implicitCount earlier) e = .ok (entry, next) ↔
      DefinedBy earlier e entry ∧ next = implicitCount (earlier ++ [e]) := by
  obtain ⟨written, value, description⟩ := entry
  -- only a number that is not given is taken from the counter
  cases hvalue : e.attribute? "value" with
  | none =>
    rw [ofElement_of_implicit hvalue, implicitCount_concat_of_none hvalue, map_eq_ok_iff]
    simp only [required_eq_ok_iff]
    constructor
    · rintro ⟨name, hname, h⟩
      obtain ⟨⟨rfl, rfl, rfl⟩, rfl⟩ := h
      exact ⟨⟨⟨name, hname, rfl⟩, fun _ => rfl, by simp [hvalue], rfl⟩, by simp⟩
    · rintro ⟨⟨⟨name, hname, rfl⟩, himplicit, -, rfl⟩, rfl⟩
      obtain rfl := himplicit hvalue
      exact ⟨name, hname, rfl⟩
  | some raw =>
    rw [ofElement_of_explicit hvalue, implicitCount_concat_of_some hvalue, bind_eq_ok_iff]
    simp only [required_eq_ok_iff]
    constructor
    · rintro ⟨name, hname, h⟩
      cases hparse : parseValue? raw with
      | none => simp [hparse] at h
      | some v =>
        rw [hparse, Option.elim_some] at h
        obtain ⟨⟨rfl, rfl, rfl⟩, rfl⟩ := Except.ok.inj h
        refine ⟨⟨⟨name, hname, rfl⟩, by simp [hvalue], fun raw' hraw' => ?_, rfl⟩, rfl⟩
        obtain rfl := Option.some.inj (hvalue.symm.trans hraw')
        exact parseValue?_eq_some_iff.mp hparse
    · rintro ⟨⟨⟨name, hname, rfl⟩, -, hexplicit, rfl⟩, rfl⟩
      refine ⟨name, hname, ?_⟩
      rw [parseValue?_eq_some_iff.mpr (hexplicit raw hvalue)]
      rfl

/-- The fault of an entry does not depend on the entries in front of it. -/
theorem ofElement_eq_error_iff :
    Entry.ofElement enumeration next e = .error fault ↔ HasFault enumeration e fault := by
  constructor
  · intro h
    -- a missing name is reported in either case, and a number only where it is given
    cases hvalue : e.attribute? "value" with
    | none =>
      rw [ofElement_of_implicit hvalue, map_eq_error_iff, required_eq_error_iff] at h
      obtain ⟨hname, rfl⟩ := h
      exact .unnamed hname
    | some raw =>
      rw [ofElement_of_explicit hvalue, bind_eq_error_iff, required_eq_error_iff] at h
      rcases h with ⟨hname, rfl⟩ | ⟨name, hname, h⟩
      · exact .unnamed hname
      · cases hparse : parseValue? raw with
        | some v => simp [hparse] at h
        | none =>
          rw [hparse, Option.elim_none] at h
          obtain rfl := Except.error.inj h
          have hnone := parseValue?_eq_none_iff.mp hparse
          exact .misnumbered (required_eq_ok_iff.mp hname) hvalue hnone
  · intro h
    cases h with
    | unnamed h =>
      rw [Entry.ofElement, required_eq_error_iff.mpr ⟨h, rfl⟩]
      rfl
    | misnumbered hname hraw h =>
      rw [ofElement_of_explicit hraw]
      refine bind_eq_error_iff.mpr (.inr ⟨_, required_eq_ok_iff.mpr hname, ?_⟩)
      rw [parseValue?_eq_none_iff.mpr h, Option.elim_none]

end Entry

/-! ## Entries one after the other -/

/-- The elements define the entries, place by place, behind some others. -/
def EntriesBehind (earlier es : List Element) (entries : List Entry) : Prop :=
  entries.length = es.length ∧ ∀ front e back, es = front ++ e :: back →
    ∃ entry, entries[front.length]? = some entry ∧ Entry.DefinedBy (earlier ++ front) e entry

variable {enumeration : String} {earlier es : List Element} {e : Element} {entries : List Entry}
  {next : Int} {fault : Fault}

theorem entriesBehind_nil_iff : EntriesBehind earlier [] entries ↔ entries = [] := by
  simp [EntriesBehind]

/-- The first entry stands behind the earlier ones, the others behind these and the first. -/
theorem entriesBehind_cons_iff :
    EntriesBehind earlier (e :: es) entries ↔ ∃ entry rest, entries = entry :: rest ∧
      Entry.DefinedBy earlier e entry ∧ EntriesBehind (earlier ++ [e]) es rest := by
  constructor
  · rintro ⟨hlength, hplaces⟩
    obtain ⟨entry, rest, rfl⟩ := List.exists_cons_of_length_eq_add_one hlength
    refine ⟨entry, rest, rfl, ?_, Nat.succ.inj hlength, ?_⟩
    · obtain ⟨found, hfound, hentry⟩ := hplaces [] e es rfl
      obtain rfl := Option.some.inj hfound
      simpa using hentry
    · rintro front child back rfl
      obtain ⟨found, hfound, hentry⟩ := hplaces (e :: front) child back rfl
      exact ⟨found, by simpa using hfound, by simpa using hentry⟩
  · rintro ⟨entry, rest, rfl, hentry, hlength, hplaces⟩
    refine ⟨congrArg Nat.succ hlength, fun front child back hsplit => ?_⟩
    -- the entry asked for is the first, or it stands behind it
    cases front with
    | nil =>
      obtain ⟨rfl, -⟩ := List.cons.inj hsplit
      exact ⟨entry, rfl, by simpa using hentry⟩
    | cons first front =>
      obtain ⟨rfl, rfl⟩ := List.cons.inj hsplit
      obtain ⟨found, hfound, hchild⟩ := hplaces front child back rfl
      exact ⟨found, by simpa using hfound, by simpa using hchild⟩

/-- With the counter at the number of earlier entries that give no number, elements define entries
behind these. -/
theorem entriesOfElements_eq_ok_iff :
    entriesOfElements enumeration (implicitCount earlier) es = .ok entries ↔
      EntriesBehind earlier es entries := by
  induction es generalizing earlier entries with
  | nil => simp [entriesOfElements, entriesBehind_nil_iff, eq_comm]
  | cons e rest ih =>
    rw [entriesOfElements, bind_eq_ok_iff, entriesBehind_cons_iff]
    constructor
    · rintro ⟨⟨entry, next⟩, hentry, h⟩
      obtain ⟨hdefined, rfl⟩ := Entry.ofElement_eq_ok_iff.mp hentry
      obtain ⟨more, hmore, h⟩ := bind_eq_ok_iff.mp h
      exact ⟨entry, more, (Except.ok.inj h).symm, hdefined, ih.mp hmore⟩
    · rintro ⟨entry, more, rfl, hdefined, hmore⟩
      refine ⟨(entry, _), Entry.ofElement_eq_ok_iff.mpr ⟨hdefined, rfl⟩, ?_⟩
      exact bind_eq_ok_iff.mpr ⟨more, ih.mpr hmore, rfl⟩

/-- Whatever the counter is, the fault is that of the first element that has one. -/
theorem entriesOfElements_eq_error_iff :
    entriesOfElements enumeration next es = .error fault ↔
      FirstFault (Entry.HasFault enumeration) es fault := by
  induction es generalizing next with
  | nil => simp [entriesOfElements, not_firstFault_nil]
  | cons e rest ih =>
    have hfails : ∀ fault, Entry.HasFault enumeration e fault ↔
        Entry.ofElement enumeration next e = .error fault := fun _ =>
      Entry.ofElement_eq_error_iff.symm
    simp only [entriesOfElements, bind_eq_error_iff, firstFault_cons_iff, hfails,
      ← exists_eq_ok_iff]
    refine or_congr_right ⟨?_, ?_⟩
    · rintro ⟨⟨entry, next⟩, hentry, h | ⟨more, -, h⟩⟩
      · exact ⟨⟨_, hentry⟩, ih.mp h⟩
      · exact absurd h pure_ne_error
    · rintro ⟨⟨entry, hentry⟩, h⟩
      exact ⟨entry, hentry, .inl (ih.mpr h)⟩

/-! ## Enumerations -/

namespace Enumeration

/-- The element defines the enumeration: it gives the name, the first of its children that is a
description describes it, and its entries are defined by its other children, place by place. -/
structure DefinedBy (e : Element) (x : Enumeration) : Prop where
  name : e.attribute? "name" = some x.name
  count : x.entries.length = (e.childrenNamed "entry").length
  entries : ∀ front child back, e.childrenNamed "entry" = front ++ child :: back →
    ∃ entry, x.entries[front.length]? = some entry ∧ Entry.DefinedBy front child entry
  description : x.description = (e.child? "description").map fun child => Text.oneLine child.text

/-- The first fault of an element as an enumeration: no name, then the first fault of the first
entry that has one. -/
inductive HasFault (e : Element) : Fault → Prop
  | unnamed (h : e.attribute? "name" = none) : HasFault e (.missingAttribute e.name "name")
  | entry {name : String} {fault : Fault} (hname : e.attribute? "name" = some name)
      (h : FirstFault (Entry.HasFault name) (e.childrenNamed "entry") fault) : HasFault e fault

/-- Compiling an element gives an enumeration exactly if the element defines it. -/
theorem ofElement_eq_ok_iff {x : Enumeration} :
    Enumeration.ofElement e = .ok x ↔ DefinedBy e x := by
  have hcount : (0 : Int) = implicitCount [] := rfl
  simp only [Enumeration.ofElement, bind_eq_ok_iff, required_eq_ok_iff, hcount,
    entriesOfElements_eq_ok_iff, EntriesBehind, List.nil_append]
  constructor
  · rintro ⟨name, hname, entries, ⟨hlength, hentries⟩, h⟩
    obtain rfl := Except.ok.inj h
    exact ⟨hname, hlength, hentries, rfl⟩
  · obtain ⟨name, description, entries⟩ := x
    rintro ⟨hname, hlength, hentries, rfl⟩
    exact ⟨name, hname, entries, ⟨hlength, hentries⟩, rfl⟩

/-- Compiling an element reports that it has no name, or else the first fault of its entries. -/
theorem ofElement_eq_error_iff :
    Enumeration.ofElement e = .error fault ↔ HasFault e fault := by
  simp only [Enumeration.ofElement, bind_eq_error_iff, required_eq_ok_iff, required_eq_error_iff,
    entriesOfElements_eq_error_iff]
  constructor
  · rintro (⟨hname, rfl⟩ | ⟨name, hname, h | ⟨entries, -, h⟩⟩)
    · exact .unnamed hname
    · exact .entry hname h
    · exact absurd h pure_ne_error
  · intro h
    cases h with
    | unnamed h => exact .inl ⟨h, rfl⟩
    | entry hname h => exact .inr ⟨_, hname, .inl h⟩

end Enumeration

/-- An entry is at fault for its name or for its value. -/
theorem Entry.exists_hasFault_iff :
    (∃ fault, Entry.HasFault enumeration e fault) ↔ e.attribute? "name" = none ∨
      ∃ raw, e.attribute? "value" = some raw ∧ ∀ v, ¬ IsValue (Text.trim raw.toList) v := by
  constructor
  · rintro ⟨fault, h⟩
    cases h with
    | unnamed h => exact .inl h
    | misnumbered _ hraw h => exact .inr ⟨_, hraw, h⟩
  · rintro (h | ⟨raw, hraw, h⟩)
    · exact ⟨_, .unnamed h⟩
    · cases hname : e.attribute? "name" with
      | none => exact ⟨_, .unnamed hname⟩
      | some name => exact ⟨_, .misnumbered hname hraw h⟩

/-- An element is refused exactly if it or an entry of it lacks a name, or a value of an entry
denotes no number. -/
theorem Enumeration.exists_hasFault_iff :
    (∃ fault, Enumeration.HasFault e fault) ↔ e.attribute? "name" = none ∨
      ∃ child ∈ e.childrenNamed "entry", child.attribute? "name" = none ∨
        ∃ raw, child.attribute? "value" = some raw ∧ ∀ v, ¬ IsValue (Text.trim raw.toList) v := by
  cases hname : e.attribute? "name" with
  | none => simp only [true_or, iff_true]; exact ⟨_, .unnamed hname⟩
  | some name =>
    have hentries : (∃ fault, Enumeration.HasFault e fault) ↔
        ∃ fault, FirstFault (Entry.HasFault name) (e.childrenNamed "entry") fault := by
      refine exists_congr fun fault => ⟨fun h => ?_, fun h => .entry hname h⟩
      cases h with
      | unnamed h => exact absurd (hname.symm.trans h) (by simp)
      | entry hname' h =>
        obtain rfl := Option.some.inj (hname.symm.trans hname')
        exact h
    simp only [hentries, exists_firstFault_iff, Entry.exists_hasFault_iff, reduceCtorEq, false_or]

/-- **The numbers of entries.** An element defines an enumeration exactly if it gives a name and its
entries do: they stand in the order of the element, with their names in upper case. An entry that
gives a number has the one its text denotes; any other has the number of the entries in front of it
that give none, whatever numbers stand between them or are used twice. An element is refused exactly
if it or an entry of it lacks a name, or a text that should be a number denotes none, and the fault
is the first of these: its own name comes before its entries, these come in order, and in each the
name comes before the number. -/
theorem ofElement_numbers_entries (e : Element) :
    (∀ x, Enumeration.ofElement e = .ok x ↔ Enumeration.DefinedBy e x) ∧
    (∀ fault, Enumeration.ofElement e = .error fault ↔ Enumeration.HasFault e fault) ∧
    ((∃ fault, Enumeration.ofElement e = .error fault) ↔ e.attribute? "name" = none ∨
      ∃ child ∈ e.childrenNamed "entry", child.attribute? "name" = none ∨
        ∃ raw, child.attribute? "value" = some raw ∧
          ∀ v, ¬ IsValue (Text.trim raw.toList) v) := by
  refine ⟨fun x => Enumeration.ofElement_eq_ok_iff,
    fun fault => Enumeration.ofElement_eq_error_iff, ?_⟩
  simp only [Enumeration.ofElement_eq_error_iff]
  exact Enumeration.exists_hasFault_iff

/-- Numbers that are given do not move the counter. -/
example :
    let entry (name : String) (value : List (String × String)) : Element :=
      ⟨"entry", ("name", name) :: value, [], "", 1⟩
    let entries := [entry "uninit" [], entry "boot" [("value", "10")], entry "calibrating" [],
      entry "hex" [("value", " 0x-20 ")]]
    Enumeration.ofElement ⟨"enum", [("name", "STATE")], entries, "", 1⟩ =
      .ok ⟨"STATE", none, [⟨"UNINIT", 0, none⟩, ⟨"BOOT", 10, none⟩, ⟨"CALIBRATING", 1, none⟩,
        ⟨"HEX", -32, none⟩]⟩ := by
  rfl

end Dialect.Schema

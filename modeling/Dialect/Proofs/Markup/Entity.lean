import Dialect.Proofs.Markup.Reference
import Dialect.Proofs.Text.Numeral

/-!
# The form of references

What stands between ampersand and semicolon: one of five names, or the code point of a character in
decimal or hexadecimal digits (`Denotes`). The digits are read as a number that may carry a sign, so
a plus sign in front of them is accepted although the form has none. `expand_eq_ok_iff_replaces`
says which texts can be expanded, and into what, with this sign allowed; `expand_plus` is a text
that cannot be without it.
-/

namespace Dialect.Markup

open Dialect.Text (IsNumeral)

/-- The name of a character, or its code point in digits behind a number sign. In front of the
digits stands one of `signs`. -/
inductive Denotes (signs : List (List Char)) : List Char → Char → Prop
  | lt : Denotes signs "lt".toList '<'
  | gt : Denotes signs "gt".toList '>'
  | amp : Denotes signs "amp".toList '&'
  | quot : Denotes signs "quot".toList '"'
  | apos : Denotes signs "apos".toList '\''
  | decimal {sign digits : List Char} {x : Char} (hsign : sign ∈ signs)
      (hdigits : IsNumeral 10 digits x.toNat) : Denotes signs ('#' :: (sign ++ digits)) x
  | hexadecimal {mark : Char} {sign digits : List Char} {x : Char} (hmark : mark = 'x' ∨ mark = 'X')
      (hsign : sign ∈ signs) (hdigits : IsNumeral 16 digits x.toNat) :
      Denotes signs ('#' :: mark :: (sign ++ digits)) x

/-- Each ampersand begins a reference that ends with a semicolon, and with the characters that the
references denote in their places one text is the other. -/
inductive Replaces (rule : List Char → Char → Prop) : List Char → List Char → Prop
  | nil : Replaces rule [] []
  | plain {c : Char} {raw text : List Char} (hc : c ≠ '&') (h : Replaces rule raw text) :
      Replaces rule (c :: raw) (c :: text)
  | reference {entity : List Char} {x : Char} {raw text : List Char} (hx : rule entity x)
      (h : Replaces rule raw text) : Replaces rule ('&' :: (entity ++ ';' :: raw)) (x :: text)

/-- Under rules that allow more, texts stand for what they have stood for. -/
theorem Replaces.mono {rule rule' : List Char → Char → Prop} {raw text : List Char}
    (h : Replaces rule raw text) (himp : ∀ entity x, rule entity x → rule' entity x) :
    Replaces rule' raw text := by
  induction h with
  | nil => exact .nil
  | plain hc _ ih => exact .plain hc ih
  | reference hx _ ih => exact .reference (himp _ _ hx) ih

/-- Behind an ampersand there is a reference. -/
theorem Replaces.exists_reference {rule : List Char → Char → Prop} {rest text : List Char}
    (h : Replaces rule ('&' :: rest) text) :
    ∃ entity x more, rule entity x ∧ rest = entity ++ ';' :: more := by
  cases h with
  | plain hc _ => exact absurd rfl hc
  | reference hx _ => exact ⟨_, _, _, hx, rfl⟩

/-- A text resolves if the reader of references accepts each of them. -/
theorem resolves_iff_replaces {raw text : List Char} :
    Resolves raw text ↔
      Replaces (fun entity x => ';' ∉ entity ∧ referenced? entity = some x) raw text := by
  constructor
  · intro h
    induction h with
    | nil => exact .nil
    | plain hc _ ih => exact .plain hc ih
    | reference hend hx _ ih => exact .reference ⟨hend, hx⟩ ih
  · intro h
    induction h with
    | nil => exact .nil
    | plain hc _ ih => exact .plain hc ih
    | reference hx _ ih => exact .reference hx.1 hx.2 ih

/-! ## Names -/

/-- The five names denote their characters, whatever signs are allowed. -/
theorem denotes_of_lookup {signs : List (List Char)} {entity : List Char} {x : Char}
    (h : predefined.lookup (String.ofList entity) = some x) : Denotes signs entity x := by
  obtain ⟨before, after, hsplit, -⟩ := List.lookup_eq_some_iff.mp h
  -- what is found is one of the five entries
  have hmem : (String.ofList entity, x) ∈ predefined := by
    rw [hsplit]
    exact List.mem_append_right before List.mem_cons_self
  have hentity : ∀ name, String.ofList entity = name → entity = name.toList := by
    rintro _ rfl
    exact String.toList_ofList.symm
  simp only [predefined, List.mem_cons, Prod.mk.injEq, List.not_mem_nil, or_false] at hmem
  rcases hmem with ⟨hname, rfl⟩ | ⟨hname, rfl⟩ | ⟨hname, rfl⟩ | ⟨hname, rfl⟩ | ⟨hname, rfl⟩ <;>
    rw [hentity _ hname]
  · exact .lt
  · exact .gt
  · exact .amp
  · exact .quot
  · exact .apos

/-- No name begins with a number sign. -/
theorem lookup_number_sign (code : List Char) :
    predefined.lookup (String.ofList ('#' :: code)) = none := by
  refine List.lookup_eq_none_iff.mpr fun p hp => bne_iff_ne.mpr fun heq => ?_
  have hall : ∀ p ∈ predefined, p.1.toList.head? ≠ some '#' := by decide
  refine hall p hp ?_
  rw [← heq, String.toList_ofList]
  rfl

/-! ## Numbers -/

/-- The signs that the reader of numbers lets pass in front of the digits. -/
def acceptedSigns : List (List Char) := [[], ['+']]

/-- A character is found exactly by its own number. -/
theorem ofCodePoint?_eq_some_iff {n : Nat} {x : Char} : ofCodePoint? n = some x ↔ x.toNat = n := by
  rw [ofCodePoint?, Option.ite_none_right_eq_some, Option.some.injEq]
  constructor
  · rintro ⟨hn, rfl⟩
    rw [Char.ofNat, dif_pos hn]
    rfl
  · rintro rfl
    exact ⟨x.valid, Char.ofNat_toNat x⟩

/-- A numeral gives a character behind one of the signs that are accepted. -/
theorem unsignedNumeral?_bind_iff {base : Nat} {s : List Char} {x : Char} :
    Text.unsignedNumeral? base s >>= ofCodePoint? = some x ↔
      ∃ sign ∈ acceptedSigns, ∃ digits, IsNumeral base digits x.toNat ∧ s = sign ++ digits := by
  simp only [Option.bind_eq_bind, Option.bind_eq_some_iff, ofCodePoint?_eq_some_iff,
    Text.unsignedNumeral?_eq_some_iff, acceptedSigns, List.mem_cons, List.not_mem_nil, or_false,
    exists_eq_or_imp, exists_eq_left, List.nil_append, List.singleton_append]
  constructor
  · rintro ⟨_, ⟨digits, hn, hs | hs⟩, rfl⟩
    · exact .inl ⟨digits, hn, hs⟩
    · exact .inr ⟨digits, hn, hs⟩
  · rintro (⟨digits, hn, hs⟩ | ⟨digits, hn, hs⟩)
    · exact ⟨_, ⟨digits, hn, .inl hs⟩, rfl⟩
    · exact ⟨_, ⟨digits, hn, .inr hs⟩, rfl⟩

/-- The digits of a decimal number do not begin like those of a hexadecimal one. -/
theorem ne_mark_of_decimal {sign digits rest : List Char} {mark : Char} {n : Nat}
    (hsign : sign ∈ acceptedSigns) (h : IsNumeral 10 digits n) (hmark : mark = 'x' ∨ mark = 'X') :
    sign ++ digits ≠ mark :: rest := by
  have hplus : '+' ≠ mark := by rcases hmark with rfl | rfl <;> decide
  have hdigit : ∀ d < 10, Text.lowerDigits[d]? ≠ some mark ∧ Text.upperDigits[d]? ≠ some mark := by
    rcases hmark with rfl | rfl <;> decide
  obtain ⟨hne, values, hvalues, -⟩ := h
  simp only [acceptedSigns, List.mem_cons, List.not_mem_nil, or_false] at hsign
  rcases hsign with rfl | rfl
  · cases hvalues with
    | nil => exact absurd rfl hne
    | @cons c d digits values hd _ =>
      rintro heq
      obtain ⟨rfl, -⟩ := List.cons.inj heq
      exact hd.2.elim (hdigit d hd.1).1 (hdigit d hd.1).2
  · exact fun heq => hplus (List.cons.inj heq).1

/-- Reading the digits behind a number sign finds the character whose code point they are. -/
theorem numbered?_eq_some_iff {code : List Char} {x : Char} :
    numbered? code = some x ↔
      (∃ sign ∈ acceptedSigns, ∃ digits, IsNumeral 10 digits x.toNat ∧ code = sign ++ digits) ∨
        ∃ mark, (mark = 'x' ∨ mark = 'X') ∧ ∃ sign ∈ acceptedSigns, ∃ digits,
          IsNumeral 16 digits x.toNat ∧ code = mark :: (sign ++ digits) := by
  have hhexadecimal : ∀ {mark : Char} {rest : List Char}, (mark = 'x' ∨ mark = 'X') →
      code = mark :: rest → numbered? code = Text.unsignedNumeral? 16 rest >>= ofCodePoint? := by
    rintro _ _ (rfl | rfl) rfl <;> rfl
  -- the mark decides on the base, and no decimal numeral begins with it
  by_cases hmarked : ∃ mark rest, (mark = 'x' ∨ mark = 'X') ∧ code = mark :: rest
  · obtain ⟨mark, rest, hmark, hcode⟩ := hmarked
    rw [hhexadecimal hmark hcode, unsignedNumeral?_bind_iff]
    constructor
    · rintro ⟨sign, hsign, digits, hn, rfl⟩
      exact .inr ⟨mark, hmark, sign, hsign, digits, hn, hcode⟩
    · rintro (⟨sign, hsign, digits, hn, heq⟩ | ⟨_, -, sign, hsign, digits, hn, heq⟩)
      · exact absurd (heq.symm.trans hcode) (ne_mark_of_decimal hsign hn hmark)
      · exact ⟨sign, hsign, digits, hn, (List.cons.inj (hcode.symm.trans heq)).2⟩
  · have hdecimal : numbered? code = Text.unsignedNumeral? 10 code >>= ofCodePoint? := by
      rw [numbered?.eq_def]
      split
      · exact absurd ⟨_, _, .inl rfl, rfl⟩ hmarked
      · exact absurd ⟨_, _, .inr rfl, rfl⟩ hmarked
      · rfl
    rw [hdecimal, unsignedNumeral?_bind_iff]
    refine ⟨.inl, ?_⟩
    rintro (h | ⟨mark, hmark, sign, -, digits, -, heq⟩)
    · exact h
    · exact absurd ⟨mark, _, hmark, heq⟩ hmarked

/-! ## References -/

/-- Reading a reference finds the character that it denotes. -/
theorem referenced?_eq_some_iff {entity : List Char} {x : Char} :
    referenced? entity = some x ↔ Denotes acceptedSigns entity x := by
  constructor
  · intro h
    unfold referenced? at h
    split at h
    · next c hc => exact Option.some.inj h ▸ denotes_of_lookup hc
    · split at h
      · next code _ =>
        rcases numbered?_eq_some_iff.mp h with ⟨sign, hsign, digits, hn, rfl⟩ |
          ⟨mark, hmark, sign, hsign, digits, hn, rfl⟩
        · exact .decimal hsign hn
        · exact .hexadecimal hmark hsign hn
      · exact absurd h (by simp)
  · intro h
    -- no name of the table begins with a number sign, so the two ways do not meet
    have hnumber : ∀ code, numbered? code = some x → referenced? ('#' :: code) = some x := by
      intro code hcode
      rw [referenced?, lookup_number_sign]
      exact hcode
    cases h with
    | lt => rfl
    | gt => rfl
    | amp => rfl
    | quot => rfl
    | apos => rfl
    | decimal hsign hn =>
      exact hnumber _ (numbered?_eq_some_iff.mpr (.inl ⟨_, hsign, _, hn, rfl⟩))
    | hexadecimal hmark hsign hn =>
      exact hnumber _ (numbered?_eq_some_iff.mpr (.inr ⟨_, hmark, _, hsign, _, hn, rfl⟩))

/-- A character that references are made of. -/
def isReferenceChar (c : Char) : Bool := c.isAlphanum || c == '#' || c == '+'

/-- Digits may stand in a reference. -/
theorem isReferenceChar_of_isNumeral {base n : Nat} {digits : List Char}
    (h : IsNumeral base digits n) : digits.all isReferenceChar := by
  have hall : (Text.lowerDigits ++ Text.upperDigits).all isReferenceChar := by decide
  exact List.all_eq_true.mpr fun c hc => List.all_eq_true.mp hall c (h.mem_of_mem hc)

/-- What denotes a character is made of certain characters only. An ampersand and a semicolon are
not among them, so no reference begins inside another, and the next semicolon ends it. -/
theorem Denotes.all_isReferenceChar {entity : List Char} {x : Char}
    (h : Denotes acceptedSigns entity x) : entity.all isReferenceChar := by
  -- a sign and digits, whatever the base
  have hsigned : ∀ {base n : Nat} {sign digits : List Char}, sign ∈ acceptedSigns →
      IsNumeral base digits n → (sign ++ digits).all isReferenceChar := by
    intro base n sign digits hsign hn
    have hsigns : acceptedSigns.all (·.all isReferenceChar) := by decide
    rw [List.all_append, List.all_eq_true.mp hsigns sign hsign, isReferenceChar_of_isNumeral hn]
    rfl
  cases h with
  | lt => decide
  | gt => decide
  | amp => decide
  | quot => decide
  | apos => decide
  | decimal hsign hn =>
    rw [List.all_cons, hsigned hsign hn]
    decide
  | hexadecimal hmark hsign hn =>
    rw [List.all_cons, List.all_cons, hsigned hsign hn]
    rcases hmark with rfl | rfl <;> decide

/-- What cannot stand in a reference does not stand in one that denotes something. -/
theorem Denotes.notMem {entity : List Char} {x mark : Char} (h : Denotes acceptedSigns entity x)
    (hmark : isReferenceChar mark = false) : mark ∉ entity := fun hmem =>
  Bool.false_ne_true (hmark.symm.trans (List.all_eq_true.mp h.all_isReferenceChar mark hmem))

/-- **Which texts can be expanded.** A text is expanded into another exactly if each ampersand in
it, from left to right, begins one of the five names or a code point in one or more digits, with at
most a plus sign in front of them, up to a semicolon, and the other text has the characters that
these denote in their places and is the same elsewhere. -/
theorem expand_eq_ok_iff_replaces (raw text : List Char) :
    expand raw = .ok text ↔ Replaces (Denotes acceptedSigns) raw text := by
  rw [expand_eq_ok_iff, resolves_iff_replaces]
  constructor
  · exact fun h => h.mono fun entity x hx => referenced?_eq_some_iff.mp hx.2
  · exact fun h => h.mono fun entity x hx =>
      ⟨hx.notMem (by decide), referenced?_eq_some_iff.mpr hx⟩

/-- A reference with a sign in front of its digits is expanded, and it is none if the form of
references has no signs. -/
theorem expand_plus :
    expand "&#+65;".toList = .ok ['A'] ∧
      ¬ ∃ text, Replaces (Denotes [[]]) "&#+65;".toList text := by
  constructor
  · have hchar : referenced? "#+65".toList = some 'A' := rfl
    exact (Resolves.reference (by decide) hchar .nil).expand_eq
  · rintro ⟨text, h⟩
    obtain ⟨entity, x, more, hx, heq⟩ : ∃ entity x more, Denotes [[]] entity x ∧
        "#+65;".toList = entity ++ ';' :: more := h.exists_reference
    -- an entity of this text is a decimal one, and digits do not begin with a sign
    cases hx with
    | lt => exact absurd (List.cons.inj heq).1 (by decide)
    | gt => exact absurd (List.cons.inj heq).1 (by decide)
    | amp => exact absurd (List.cons.inj heq).1 (by decide)
    | quot => exact absurd (List.cons.inj heq).1 (by decide)
    | apos => exact absurd (List.cons.inj heq).1 (by decide)
    | decimal hsign hdigits =>
      obtain rfl := List.mem_singleton.mp hsign
      obtain ⟨c, digits, rfl, hplus, -⟩ := hdigits.exists_cons
      exact hplus (List.cons.inj (List.cons.inj heq).2).1.symm
    | hexadecimal hmark _ _ =>
      obtain rfl := (List.cons.inj (List.cons.inj heq).2).1
      exact absurd hmark (by decide)

end Dialect.Markup

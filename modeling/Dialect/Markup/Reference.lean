import Dialect.Text.Numeral

/-!
# References

An ampersand begins a reference and the next semicolon ends it. What stands between them names one
of five characters or gives the code point of any character in decimal or hexadecimal digits.
`expand` puts the characters in the place of the references, from left to right.
-/

namespace Dialect.Markup

/-- Splits a text at the first `mark`, which belongs to neither part. -/
def cut? (mark : Char) : List Char → Option (List Char × List Char)
  | [] => none
  | c :: rest =>
    if c = mark then some ([], rest) else (cut? mark rest).map fun p => (c :: p.1, p.2)

/-- A text is cut at the first of its marks. -/
theorem cut?_eq_some {mark : Char} {s before after : List Char}
    (h : cut? mark s = some (before, after)) : s = before ++ mark :: after ∧ mark ∉ before := by
  induction s generalizing before with
  | nil => simp [cut?] at h
  | cons c rest ih =>
    by_cases hc : c = mark
    · simp only [cut?, hc, if_true, Option.some.injEq, Prod.mk.injEq] at h
      obtain ⟨rfl, rfl⟩ := h
      simp [hc]
    · simp only [cut?, hc, if_false, Option.map_eq_some_iff, Prod.mk.injEq] at h
      obtain ⟨⟨b, a⟩, hr, rfl, rfl⟩ := h
      obtain ⟨rfl, hb⟩ := ih hr
      simp [hb, Ne.symm hc]

/-- Behind the mark there is less than in the whole text. -/
theorem length_lt_of_cut? {mark : Char} {s before after : List Char}
    (h : cut? mark s = some (before, after)) : after.length < s.length := by
  rw [(cut?_eq_some h).1]
  simp
  omega

/-- The characters that have a name of their own. -/
def predefined : List (String × Char) :=
  [("lt", '<'), ("gt", '>'), ("amp", '&'), ("quot", '"'), ("apos", '\'')]

/-- The character with the given code point, surrogates left out. -/
def ofCodePoint? (n : Nat) : Option Char := if n.isValidChar then some (Char.ofNat n) else none

/-- The character a numeric reference stands for, by what follows its number sign. -/
def numbered? : List Char → Option Char
  | 'x' :: digits => Text.unsignedNumeral? 16 digits >>= ofCodePoint?
  | 'X' :: digits => Text.unsignedNumeral? 16 digits >>= ofCodePoint?
  | digits => Text.unsignedNumeral? 10 digits >>= ofCodePoint?

/-- The character a reference stands for, by what stands between ampersand and semicolon. -/
def referenced? (entity : List Char) : Option Char :=
  match predefined.lookup (String.ofList entity) with
  | some c => some c
  | none =>
    match entity with
    | '#' :: code => numbered? code
    | _ => none

/-- How much of a text is quoted when a reference in it has no end. -/
def quotedLength : Nat := 8

/-- The text with its references expanded, or the first reference that stands for nothing. -/
def expand : List Char → Except String (List Char)
  | [] => .ok []
  | c :: rest =>
    if c = '&' then
      match h : cut? ';' rest with
      | none => .error (String.ofList (rest.take quotedLength))
      | some (entity, after) =>
        have := length_lt_of_cut? h
        match referenced? entity with
        | none => .error (String.ofList entity)
        | some x => (x :: ·) <$> expand after
    else (c :: ·) <$> expand rest
termination_by s => s.length
decreasing_by all_goals simp only [List.length_cons]; omega

end Dialect.Markup

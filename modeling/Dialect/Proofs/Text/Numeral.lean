import Dialect.Proofs.Outcome
import Dialect.Text.Numeral
import Mathlib.Data.Nat.Digits.Defs

/-!
# What numerals denote

`IsNumeral` says which number a run of digits denotes, by its place values, and `IsSignedNumeral`
which number such a run denotes with a sign in front of it. Reading a numeral finds this number, and
nothing where there is none (`numeral?_eq_some_iff`, `signedNumeral?_eq_some_iff`), however long the
run is and whatever it begins with. What is written for a number in decimal is a numeral of it.
-/

namespace Dialect.Text

variable {base n d : Nat} {c : Char} {s : List Char} {v : Int}

/-! ## Digits -/

/-- The digits to base sixteen by their values, letters in lower case. -/
def lowerDigits : List Char :=
  ['0', '1', '2', '3', '4', '5', '6', '7', '8', '9', 'a', 'b', 'c', 'd', 'e', 'f']

/-- The digits to base sixteen by their values, letters in upper case. -/
def upperDigits : List Char :=
  ['0', '1', '2', '3', '4', '5', '6', '7', '8', '9', 'A', 'B', 'C', 'D', 'E', 'F']

/-- The character is the digit with the value `d` to the given base. -/
def IsDigit (base : Nat) (c : Char) (d : Nat) : Prop :=
  d < base ∧ (lowerDigits[d]? = some c ∨ upperDigits[d]? = some c)

/-- A character of a range by its distance to the first one. -/
theorem exists_ofNat_of_range {lo hi : Char} (h : (decide (lo ≤ c) && decide (c ≤ hi)) = true) :
    ∃ k ≤ hi.toNat - lo.toNat, c = Char.ofNat (lo.toNat + k) := by
  rw [Bool.and_eq_true, decide_eq_true_iff, decide_eq_true_iff] at h
  have hlo : lo.toNat ≤ c.toNat := h.1
  have hhi : c.toNat ≤ hi.toNat := h.2
  refine ⟨c.toNat - lo.toNat, by omega, ?_⟩
  rw [Nat.add_sub_cancel' hlo, Char.ofNat_toNat]

/-- Reading a digit finds its value. -/
theorem digit?_eq_some_iff : digit? base c = some d ↔ IsDigit base c d := by
  rw [digit?, Option.filter_eq_some_iff, decide_eq_true_iff, and_comm, IsDigit]
  refine and_congr_right fun hbase => ⟨fun h => ?_, fun h => ?_⟩
  · -- in each of the three ranges the value follows from the distance to the first character
    split at h
    · next hrange =>
      obtain ⟨k, hk, rfl⟩ := exists_ofNat_of_range hrange
      have hdigits : ∀ k ≤ 9, lowerDigits[(Char.ofNat (48 + k)).toNat - 48]? =
          some (Char.ofNat (48 + k)) := by decide
      exact .inl (Option.some.inj h ▸ hdigits k hk)
    · split at h
      · next hrange =>
        obtain ⟨k, hk, rfl⟩ := exists_ofNat_of_range hrange
        have hdigits : ∀ k ≤ 5, lowerDigits[(Char.ofNat (97 + k)).toNat - 87]? =
            some (Char.ofNat (97 + k)) := by decide
        exact .inl (Option.some.inj h ▸ hdigits k hk)
      · split at h
        · next hrange =>
          obtain ⟨k, hk, rfl⟩ := exists_ofNat_of_range hrange
          have hdigits : ∀ k ≤ 5, upperDigits[(Char.ofNat (65 + k)).toNat - 55]? =
              some (Char.ofNat (65 + k)) := by decide
          exact .inr (Option.some.inj h ▸ hdigits k hk)
        · exact absurd h (by simp)
  · rcases h with h | h
    · obtain ⟨hd, rfl⟩ := List.getElem?_eq_some_iff.mp h
      clear h hbase
      revert d
      decide
    · obtain ⟨hd, rfl⟩ := List.getElem?_eq_some_iff.mp h
      clear h hbase
      revert d
      decide

/-- A digit is one of those to base sixteen, in either case. -/
theorem IsDigit.mem (h : IsDigit base c d) : c ∈ lowerDigits ++ upperDigits :=
  List.mem_append.mpr (h.2.imp List.mem_of_getElem? List.mem_of_getElem?)

/-- No digit is a sign. -/
theorem IsDigit.ne_sign (h : IsDigit base c d) : c ≠ '+' ∧ c ≠ '-' := by
  have hall : ∀ x ∈ lowerDigits ++ upperDigits, x ≠ '+' ∧ x ≠ '-' := by
    simp [lowerDigits, upperDigits]
  exact hall c h.mem

/-! ## Numerals without a sign -/

/-- The text is one or more digits to the given base, and the number is their value, the first digit
being that of the highest place. -/
def IsNumeral (base : Nat) (s : List Char) (n : Nat) : Prop :=
  s ≠ [] ∧ ∃ digits, List.Forall₂ (IsDigit base) s digits ∧ n = Nat.ofDigits base digits.reverse

/-- Digits written behind a number move it up by their number of places. -/
theorem appendDigits?_eq_some_iff {start : Nat} :
    appendDigits? base start s = some n ↔
      ∃ digits, List.Forall₂ (IsDigit base) s digits ∧
        n = start * base ^ digits.length + Nat.ofDigits base digits.reverse := by
  induction s generalizing start with
  | nil => simp [appendDigits?, eq_comm]
  | cons c rest ih =>
    simp only [appendDigits?, Option.bind_eq_bind, Option.bind_eq_some_iff, digit?_eq_some_iff, ih,
      List.forall₂_cons_left_iff]
    constructor
    · rintro ⟨d, hd, digits, hdigits, rfl⟩
      refine ⟨d :: digits, ⟨d, digits, hd, hdigits, rfl⟩, ?_⟩
      rw [Nat.ofDigits_reverse_cons, List.length_cons]
      ring
    · rintro ⟨_, ⟨d, digits, hd, hdigits, rfl⟩, rfl⟩
      refine ⟨d, hd, digits, hdigits, ?_⟩
      rw [Nat.ofDigits_reverse_cons, List.length_cons]
      ring

/-- Reading a numeral finds the number that it denotes. -/
theorem numeral?_eq_some_iff : numeral? base s = some n ↔ IsNumeral base s n := by
  rw [numeral?, IsNumeral]
  split
  · next hnil => simp [hnil]
  · next hne => simp [hne, appendDigits?_eq_some_iff]

/-- All characters of a numeral are digits. -/
theorem IsNumeral.mem_of_mem (h : IsNumeral base s n) (hc : c ∈ s) :
    c ∈ lowerDigits ++ upperDigits := by
  obtain ⟨-, digits, hdigits, -⟩ := h
  obtain ⟨d, -, hd⟩ := exists_of_forall₂_mem hdigits.flip hc
  exact IsDigit.mem hd

/-- A numeral begins with a digit, and so with no sign. -/
theorem IsNumeral.exists_cons (h : IsNumeral base s n) :
    ∃ c rest, s = c :: rest ∧ c ≠ '+' ∧ c ≠ '-' := by
  obtain ⟨hne, digits, hdigits, -⟩ := h
  cases hdigits with
  | nil => exact absurd rfl hne
  | @cons c d rest _ hd _ => exact ⟨c, rest, rfl, hd.ne_sign⟩

/-- One more digit puts the number before it up by one place. -/
theorem IsNumeral.concat (h : IsNumeral base s n) (hd : IsDigit base c d) :
    IsNumeral base (s ++ [c]) (d + base * n) := by
  obtain ⟨-, digits, hdigits, rfl⟩ := h
  refine ⟨by simp, digits ++ [d], List.rel_append hdigits (.cons hd .nil), ?_⟩
  rw [List.reverse_append, List.reverse_singleton, List.singleton_append, Nat.ofDigits_cons]

/-- Numbers below ten are written by digits to base ten. -/
theorem isDigit_digitChar (hd : d < 10) : IsDigit 10 d.digitChar d := by
  refine ⟨hd, .inl ?_⟩
  revert d
  decide

/-- What is written for a number in decimal is a numeral of it. -/
theorem isNumeral_repr (n : Nat) : IsNumeral 10 n.repr.toList n := by
  rw [Nat.toList_repr]
  induction n using Nat.strongRecOn with
  | ind n ih =>
    rw [Nat.toDigits_eq_if (by decide)]
    split
    · next hsmall => exact ⟨by simp, [n], .cons (isDigit_digitChar hsmall) .nil, by simp⟩
    · next hlarge =>
      have hfront := (ih (n / 10) (by omega)).concat (isDigit_digitChar (Nat.mod_lt n (by decide)))
      rwa [Nat.mod_add_div] at hfront

/-! ## Numerals with a sign -/

/-- The text is a numeral, or one behind a plus or a minus sign, and the number is its value, or the
negative of it behind a minus sign. -/
def IsSignedNumeral (base : Nat) (s : List Char) (v : Int) : Prop :=
  ∃ digits n, IsNumeral base digits n ∧
    (s = digits ∧ v = n ∨ s = '+' :: digits ∧ v = n ∨ s = '-' :: digits ∧ v = -n)

/-- Digits alone are no numeral if they begin with a sign. -/
theorem not_isNumeral_of_sign (hc : c = '+' ∨ c = '-') : ¬ IsNumeral base (c :: s) n := by
  intro h
  obtain ⟨_, _, heq, hplus, hminus⟩ := h.exists_cons
  obtain ⟨rfl, -⟩ := List.cons.inj heq
  exact hc.elim hplus hminus

/-- Reading a numeral that may have a plus sign finds the number that its digits denote. -/
theorem unsignedNumeral?_eq_some_iff :
    unsignedNumeral? base s = some n ↔
      ∃ digits, IsNumeral base digits n ∧ (s = digits ∨ s = '+' :: digits) := by
  rw [unsignedNumeral?.eq_def]
  split
  · next rest =>
    rw [numeral?_eq_some_iff]
    refine ⟨fun hn => ⟨rest, hn, .inr rfl⟩, ?_⟩
    rintro ⟨digits, hn, rfl | h⟩
    · exact absurd hn (not_isNumeral_of_sign (.inl rfl))
    · rwa [(List.cons.inj h).2]
  · next hplus =>
    rw [numeral?_eq_some_iff]
    refine ⟨fun hn => ⟨s, hn, .inl rfl⟩, ?_⟩
    rintro ⟨digits, hn, rfl | h⟩
    · exact hn
    · exact absurd h (hplus digits)

/-- Behind a minus sign there is a bare numeral. -/
theorem signedNumeral?_minus (rest : List Char) :
    signedNumeral? base ('-' :: rest) = (numeral? base rest).map fun n : Nat => -(n : Int) := by
  rw [signedNumeral?]
  cases numeral? base rest <;> rfl

/-- Without a minus sign there is at most a plus sign. -/
theorem signedNumeral?_of_ne (h : ∀ rest, s ≠ '-' :: rest) :
    signedNumeral? base s = (unsignedNumeral? base s).map Int.ofNat := by
  rw [signedNumeral?]
  exact h

/-- Reading a numeral that may have a sign finds the number that it denotes. -/
theorem signedNumeral?_eq_some_iff : signedNumeral? base s = some v ↔ IsSignedNumeral base s v := by
  rw [IsSignedNumeral]
  -- a plus sign is read with the digits, so only a minus sign makes a case of its own
  by_cases hsign : ∃ rest, s = '-' :: rest
  · obtain ⟨rest, rfl⟩ := hsign
    simp only [signedNumeral?_minus, Option.map_eq_some_iff, numeral?_eq_some_iff]
    constructor
    · rintro ⟨n, hn, rfl⟩
      exact ⟨rest, n, hn, .inr (.inr ⟨rfl, rfl⟩)⟩
    · rintro ⟨digits, n, hn, ⟨rfl, -⟩ | ⟨h, -⟩ | ⟨h, rfl⟩⟩
      · exact absurd hn (not_isNumeral_of_sign (.inr rfl))
      · exact absurd h (by simp)
      · obtain ⟨-, rfl⟩ := List.cons.inj h
        exact ⟨n, hn, rfl⟩
  · have hminus : ∀ rest, s ≠ '-' :: rest := not_exists.mp hsign
    simp only [signedNumeral?_of_ne hminus, Option.map_eq_some_iff, unsignedNumeral?_eq_some_iff]
    constructor
    · rintro ⟨n, ⟨digits, hn, hs | hs⟩, rfl⟩
      · exact ⟨digits, n, hn, .inl ⟨hs, rfl⟩⟩
      · exact ⟨digits, n, hn, .inr (.inl ⟨hs, rfl⟩)⟩
    · rintro ⟨digits, n, hn, ⟨hs, rfl⟩ | ⟨hs, rfl⟩ | ⟨hs, -⟩⟩
      · exact ⟨n, ⟨digits, hn, .inl hs⟩, rfl⟩
      · exact ⟨n, ⟨digits, hn, .inr hs⟩, rfl⟩
      · exact absurd hs (hminus digits)

end Dialect.Text

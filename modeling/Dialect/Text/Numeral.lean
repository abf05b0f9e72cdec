/-!
# Numerals

Numbers as digits, to any base up to sixteen. A bare numeral is one or more digits; a signed one may
carry a single sign in front of them; neither admits blanks or separators, and neither has an upper
limit on the number of digits.
-/

namespace Dialect.Text

/-- The value of a digit to the given base, letters in either case. -/
def digit? (base : Nat) (c : Char) : Option Nat :=
  let value? : Option Nat :=
    if '0' ≤ c && c ≤ '9' then some (c.toNat - 48)
    else if 'a' ≤ c && c ≤ 'f' then some (c.toNat - 87)
    else if 'A' ≤ c && c ≤ 'F' then some (c.toNat - 55)
    else none
  value?.filter (· < base)

/-- The number that `value` becomes when the digits of the text are written after it. -/
def appendDigits? (base value : Nat) : List Char → Option Nat
  | [] => some value
  | c :: rest => do
    let d ← digit? base c
    appendDigits? base (value * base + d) rest

/-- The number a bare numeral denotes. -/
def numeral? (base : Nat) (s : List Char) : Option Nat :=
  if s = [] then none else appendDigits? base 0 s

/-- The number denoted by a numeral that may carry a plus sign. -/
def unsignedNumeral? (base : Nat) : List Char → Option Nat
  | '+' :: rest => numeral? base rest
  | s => numeral? base s

/-- The number denoted by a numeral that may carry a plus or a minus sign. -/
def signedNumeral? (base : Nat) : List Char → Option Int
  | '-' :: rest => (numeral? base rest).map fun n => -(n : Int)
  | s => (unsignedNumeral? base s).map Int.ofNat

/-- The hexadecimal digit, in lower case, of a number below sixteen. -/
def hexDigit (n : Nat) : Char :=
  if n < 10 then Char.ofNat (48 + n) else Char.ofNat (87 + n)

/-- The last `width` hexadecimal digits of a number. -/
def hexDigits : Nat → Nat → List Char
  | 0, _ => []
  | width + 1, n => hexDigits width (n / 16) ++ [hexDigit (n % 16)]

/-- The last `width` hexadecimal digits of a number, as a text. -/
def hex (width n : Nat) : String := String.ofList (hexDigits width n)

end Dialect.Text

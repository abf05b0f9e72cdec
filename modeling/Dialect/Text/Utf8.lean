/-!
# UTF-8

Characters as bytes and back. `read` looks at one place of a byte string and finds a character, an
ill-formed sequence or a sequence cut off by the end; strict decoding stops at the first place that
holds no character, lossy decoding puts a replacement character there. An ill-formed sequence is as
long as its longest part that could begin a character, one byte at least.
-/

namespace Dialect.Text.Utf8

/-- The bytes of a text. -/
def encode (s : List Char) : List UInt8 := s.flatMap String.utf8EncodeChar

/-- What stands at one place of a byte string, `tail` bytes after its lead byte included. -/
inductive Reading where
  | character (c : Char) (tail : Nat)
  | illFormed (tail : Nat)
  | incomplete

/-- Reads one continuation byte for each admitted range. `value` and `tail` are what the bytes up to
here amount to: the bits gathered and the number of continuation bytes. -/
def readTail (value tail : Nat) : List (UInt8 × UInt8) → List UInt8 → Reading
  | [], _ => .character (Char.ofNat value) tail
  | _ :: _, [] => .incomplete
  | (low, high) :: ranges, b :: bytes =>
    if low ≤ b && b ≤ high then readTail (value * 64 + (b.toNat - 0x80)) (tail + 1) ranges bytes
    else .illFormed tail

/-- The ranges of the continuation bytes after a lead byte, and the bits the lead byte carries. The
first range is narrower where the code point would be too small, a surrogate or too large. -/
def leadByte (b : UInt8) : Option (Nat × List (UInt8 × UInt8)) :=
  if b < 0x80 then some (b.toNat, [])
  else if b < 0xC2 then none
  else if b < 0xE0 then some (b.toNat - 0xC0, [(0x80, 0xBF)])
  else if b < 0xF0 then
    some (b.toNat - 0xE0,
      [(if b = 0xE0 then 0xA0 else 0x80, if b = 0xED then 0x9F else 0xBF), (0x80, 0xBF)])
  else if b < 0xF5 then
    some (b.toNat - 0xF0,
      [(if b = 0xF0 then 0x90 else 0x80, if b = 0xF4 then 0x8F else 0xBF),
        (0x80, 0xBF), (0x80, 0xBF)])
  else none

/-- What stands where the bytes `lead :: rest` begin. -/
def read (lead : UInt8) (rest : List UInt8) : Reading :=
  match leadByte lead with
  | none => .illFormed 0
  | some (value, ranges) => readTail value 0 ranges rest

/-- Why and where a byte string is not the encoding of a text. -/
inductive Fault where
  /-- The `width` bytes at `index` begin no character. -/
  | invalid (width index : Nat)
  /-- The bytes end within the sequence that begins at `index`. -/
  | incomplete (index : Nat)
  deriving DecidableEq, Repr

/-- The wording of a fault. -/
def Fault.message : Fault → String
  | .invalid width index => s!"invalid utf-8 sequence of {width} bytes from index {index}"
  | .incomplete index => s!"incomplete utf-8 byte sequence from index {index}"

/-- Strict decoding of the bytes from `index` on. -/
def decodeFrom (index : Nat) : List UInt8 → Except Fault (List Char)
  | [] => .ok []
  | lead :: rest =>
    match read lead rest with
    | .character c tail => (c :: ·) <$> decodeFrom (index + 1 + tail) (rest.drop tail)
    | .illFormed tail => .error (.invalid (1 + tail) index)
    | .incomplete => .error (.incomplete index)
termination_by bytes => bytes.length
decreasing_by simp only [List.length_drop, List.length_cons]; omega

/-- Strict decoding: the text, or the first fault. -/
def decode (bytes : List UInt8) : Except Fault (List Char) := decodeFrom 0 bytes

/-- U+FFFD, which stands for what could not be decoded. -/
def replacement : Char := Char.ofNat 0xFFFD

/-- Lossy decoding: every ill-formed sequence, and a sequence cut off by the end, becomes one
replacement character. -/
def decodeLossy : List UInt8 → List Char
  | [] => []
  | lead :: rest =>
    match read lead rest with
    | .character c tail => c :: decodeLossy (rest.drop tail)
    | .illFormed tail => replacement :: decodeLossy (rest.drop tail)
    | .incomplete => [replacement]
termination_by bytes => bytes.length
decreasing_by all_goals simp only [List.length_drop, List.length_cons]; omega

end Dialect.Text.Utf8

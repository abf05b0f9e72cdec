/-!
# Numbers as bytes

A natural number as a fixed number of bytes, lowest first, and back; and the two orders in which
the bytes of a number may be sent.
-/

namespace Dialect.Payload

/-- The lowest `width` bytes of a number, lowest first. -/
def bytesOf : Nat → Nat → List UInt8
  | 0, _ => []
  | width + 1, n => UInt8.ofNat n :: bytesOf width (n / 256)

/-- The number with the given bytes, lowest first. -/
def ofBytes : List UInt8 → Nat
  | [] => 0
  | b :: rest => b.toNat + 256 * ofBytes rest

/-- The number of numbers that fit into `width` bytes. -/
def capacity : Nat → Nat
  | 0 => 1
  | width + 1 => 256 * capacity width

/-- The order in which the bytes of a number are sent. -/
inductive ByteOrder where
  | little | big
  deriving DecidableEq, Repr

/-- Brings bytes that stand lowest first into the given order, or back. -/
def ByteOrder.arrange (order : ByteOrder) (bytes : List UInt8) : List UInt8 :=
  match order with
  | .little => bytes
  | .big => bytes.reverse

/-- A number is written with as many bytes as are asked for. -/
theorem length_bytesOf (width n : Nat) : (bytesOf width n).length = width := by
  induction width generalizing n with
  | zero => rfl
  | succ width ih => simp [bytesOf, ih]

/-- What the bytes of a number denote is the number, but for what they are too few for. -/
theorem ofBytes_bytesOf (width n : Nat) : ofBytes (bytesOf width n) = n % capacity width := by
  induction width generalizing n with
  | zero => simp [bytesOf, ofBytes, capacity, Nat.mod_one]
  | succ width ih => rw [bytesOf, ofBytes, ih, UInt8.toNat_ofNat', capacity, Nat.mod_mul]

/-- Bytes denote no number that they have no room for. -/
theorem ofBytes_lt (bytes : List UInt8) : ofBytes bytes < capacity bytes.length := by
  induction bytes with
  | nil => exact Nat.one_pos
  | cons b rest ih =>
    have := b.toNat_lt
    simp only [ofBytes, List.length_cons, capacity]
    omega

/-- Every row of bytes is how the number that they denote is written. -/
theorem bytesOf_ofBytes (bytes : List UInt8) : bytesOf bytes.length (ofBytes bytes) = bytes := by
  induction bytes with
  | nil => rfl
  | cons b rest ih =>
    have hb := b.toNat_lt
    simp only [ofBytes, List.length_cons, bytesOf]
    rw [show (b.toNat + 256 * ofBytes rest) / 256 = ofBytes rest by omega, ih]
    congr 1
    apply UInt8.toNat_inj.1
    simp only [UInt8.toNat_ofNat']
    omega

/-- Arranging bytes twice puts them back where they were. -/
theorem ByteOrder.arrange_arrange (order : ByteOrder) (bytes : List UInt8) :
    order.arrange (order.arrange bytes) = bytes := by
  cases order <;> simp [arrange]

/-- Arranging bytes keeps all of them. -/
theorem ByteOrder.length_arrange (order : ByteOrder) (bytes : List UInt8) :
    (order.arrange bytes).length = bytes.length := by
  cases order <;> simp [arrange]

end Dialect.Payload

/-!
# The X.25 checksum

The sixteen-bit cyclic redundancy check that guards every packet and, folded to one byte, stands for
the layout of a message. One byte at a time: the byte meets the low half of the state, and the
polynomial is applied to all eight of its bits at once by three shifts.
-/

namespace Dialect.Schema

/-- The state of a checksum before the first byte. -/
def Checksum.seed : UInt16 := 0xFFFF

/-- A checksum in the making. -/
structure Checksum where
  value : UInt16 := Checksum.seed
  deriving DecidableEq, Repr

namespace Checksum

/-- The state after one more byte. -/
def step (crc : UInt16) (b : UInt8) : UInt16 :=
  let low := b ^^^ crc.toUInt8
  let mask := (low ^^^ (low <<< 4)).toUInt16
  (crc >>> 8) ^^^ (mask <<< 8) ^^^ (mask <<< 3) ^^^ (mask >>> 4)

/-- The state after the given bytes. -/
def accumulate (crc : UInt16) (bytes : List UInt8) : UInt16 := bytes.foldl step crc

/-- The two halves of a state laid over each other. -/
def fold (crc : UInt16) : UInt8 := crc.toUInt8 ^^^ (crc >>> 8).toUInt8

/-- The checksum of nothing. -/
def start : Checksum := {}

/-- The checksum with one more byte. -/
def update (c : Checksum) (b : UInt8) : Checksum := ⟨step c.value b⟩

/-- The checksum with more bytes. -/
def updateAll (c : Checksum) (bytes : List UInt8) : Checksum := ⟨accumulate c.value bytes⟩

/-- The low byte, which is sent first. -/
def low (c : Checksum) : UInt8 := c.value.toUInt8

/-- The high byte. -/
def high (c : Checksum) : UInt8 := (c.value >>> 8).toUInt8

/-- A checksum goes on behind the first bytes with the ones that follow. -/
theorem accumulate_append (crc : UInt16) (a b : List UInt8) :
    accumulate crc (a ++ b) = accumulate (accumulate crc a) b := by
  simp [accumulate]

end Checksum

end Dialect.Schema

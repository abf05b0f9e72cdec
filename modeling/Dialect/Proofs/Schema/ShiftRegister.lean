import Dialect.Schema.Checksum
import Mathlib.Logic.Function.Iterate

/-!
# The checksum as a shift register

A step of the checksum takes a whole byte. It is made of eight shifts of a register by one bit
(`step_eq_iterate_shift`), and a shift loses nothing, since the bit that leaves at the low end shows
at the high end (`shift_injective`). So neither the state before a step nor the byte is lost in the
state behind it.

Taken byte by byte in this way, the checksum is the one that interoperating parties compute bit by
bit (`serial`), and it is linear in the state and the bytes (`accumulate_serial_linear`).
-/

namespace Dialect.Schema.Checksum

/-! ## Places of a state -/

/-- The bit of a state at a place, counted from the low end. -/
def bit (s : UInt16) (i : Nat) : Bool := s.toBitVec.getLsbD i

/-- A register is known from its sixteen bits. -/
theorem eq_of_bit {s s' : UInt16} (h : ∀ i < 16, bit s i = bit s' i) : s = s' :=
  UInt16.toBitVec_inj.mp (BitVec.eq_of_getLsbD_eq h)

/-- There are no bits behind the sixteenth. -/
theorem bit_of_le (s : UInt16) {i : Nat} (h : 16 ≤ i) : bit s i = false :=
  BitVec.getLsbD_of_ge s.toBitVec i h

/-- The sum of two registers is taken bit by bit. -/
theorem bit_xor (s s' : UInt16) (i : Nat) : bit (s ^^^ s') i = (bit s i ^^ bit s' i) := by
  rw [bit, UInt16.toBitVec_xor, BitVec.getLsbD_xor]
  rfl

/-- Shifting moves every bit towards the lowest. -/
theorem bit_shiftRight (s : UInt16) {n : UInt16} (hn : n < 16) (i : Nat) :
    bit (s >>> n) i = bit s (n.toNat + i) := by
  have hn' : n.toNat < 16 := hn
  simp [bit, UInt16.toBitVec_shiftRight, Nat.mod_eq_of_lt hn']

/-- A byte fills the low bits of a register. -/
theorem bit_toUInt16 (b : UInt8) (i : Nat) : bit b.toUInt16 i = b.toBitVec.getLsbD i := by
  rw [bit, UInt8.toBitVec_toUInt16, BitVec.getLsbD_setWidth, Bool.and_eq_right_iff_imp,
    decide_eq_true_iff]
  intro h
  exact Nat.lt_trans (BitVec.lt_of_getLsbD h) (by decide)

/-- The low byte of a register has its low eight bits. -/
theorem getLsbD_toUInt8 (s : UInt16) (i : Nat) :
    s.toUInt8.toBitVec.getLsbD i = (decide (i < 8) && bit s i) := by
  rw [UInt16.toBitVec_toUInt8, BitVec.getLsbD_setWidth, bit]

/-! ## Shifts -/

/-- The polynomial of the checksum, with its lowest power at the high end. -/
def polynomial : UInt16 := 0x8408

/-- The state after the bit at its low end has left it. -/
def shift (s : UInt16) : UInt16 := if s &&& 1 = 1 then (s >>> 1) ^^^ polynomial else s >>> 1

/-- The test for an odd register looks at its lowest bit. -/
theorem and_one_eq_one_iff (s : UInt16) : s &&& 1 = 1 ↔ bit s 0 = true := by
  have hone : (1 : UInt16).toBitVec = 1#16 := rfl
  rw [bit, ← UInt16.toBitVec_inj, UInt16.toBitVec_and, hone,
    BitVec.and_one_eq_setWidth_ofBool_getLsbD]
  cases s.toBitVec.getLsbD 0 <;> decide

/-- Every bit moves down one place, and the polynomial is laid over them if the lowest was set. -/
theorem bit_shift (s : UInt16) (i : Nat) :
    bit (shift s) i = (bit s (i + 1) ^^ (bit s 0 && bit polynomial i)) := by
  have hdown : bit (s >>> 1) i = bit s (i + 1) := by
    rw [bit_shiftRight s (by decide), Nat.add_comm]
    rfl
  rw [shift]
  split
  · next h => rw [bit_xor, hdown, (and_one_eq_one_iff s).mp h, Bool.true_and]
  · next h =>
    rw [and_one_eq_one_iff, Bool.not_eq_true] at h
    rw [hdown, h, Bool.false_and, Bool.xor_false]

/-- A shift of a sum is the sum of the shifts. -/
theorem shift_xor (s s' : UInt16) : shift (s ^^^ s') = shift s ^^^ shift s' := by
  apply eq_of_bit
  intro i _
  simp only [bit_xor, bit_shift, Bool.and_xor_distrib_right, Bool.xor_assoc, Bool.xor_left_comm]

/-- A shift loses nothing. -/
theorem shift_injective : Function.Injective shift := by
  intro s s' h
  have hbits : ∀ i, bit (shift s) i = bit (shift s') i := fun i => by rw [h]
  simp only [bit_shift] at hbits
  -- nothing moves into the highest place, so the polynomial shows there
  have hlow : bit s 0 = bit s' 0 := by
    have htop : bit polynomial 15 = true := rfl
    have hhigh := hbits 15
    rwa [bit_of_le s (Nat.le_refl 16), bit_of_le s' (Nat.le_refl 16), htop, Bool.false_xor,
      Bool.false_xor, Bool.and_true, Bool.and_true] at hhigh
  apply eq_of_bit
  intro i _
  cases i with
  | zero => exact hlow
  | succ i =>
    have hi := hbits i
    rwa [hlow, Bool.xor_left_inj] at hi

/-- Any number of shifts of a sum is the sum of the shifts. -/
theorem iterate_shift_xor (n : Nat) (s s' : UInt16) :
    shift^[n] (s ^^^ s') = shift^[n] s ^^^ shift^[n] s' := by
  induction n generalizing s s' with
  | zero => rfl
  | succ n ih =>
    rw [Function.iterate_succ_apply, shift_xor, ih]
    rfl

/-- Bits of which none is set leave without a trace. -/
theorem bit_iterate_shift {n : Nat} {s : UInt16} (h : ∀ i < n, bit s i = false) (i : Nat) :
    bit (shift^[n] s) i = bit s (n + i) := by
  induction n generalizing s with
  | zero => rw [Function.iterate_zero_apply, Nat.zero_add]
  | succ n ih =>
    have hdown : ∀ i, bit (shift s) i = bit s (i + 1) := fun i => by
      rw [bit_shift, h 0 (Nat.succ_pos n), Bool.false_and, Bool.xor_false]
    have hlow : ∀ i < n, bit (shift s) i = false := fun i hi => by
      rw [hdown, h (i + 1) (Nat.succ_lt_succ hi)]
    rw [Function.iterate_succ_apply, ih hlow, hdown]
    congr 1
    omega

/-! ## Steps -/

/-- The three shifts of a step are what eight shifts of the register make of a byte. -/
theorem mask_eq_iterate_shift (b : UInt8) :
    let mask := (b ^^^ (b <<< 4)).toUInt16
    (mask <<< 8) ^^^ (mask <<< 3) ^^^ (mask >>> 4) = shift^[8] b.toUInt16 := by
  have h : ∀ n < 256,
      let mask := (UInt8.ofNat n ^^^ (UInt8.ofNat n <<< 4)).toUInt16
      (mask <<< 8) ^^^ (mask <<< 3) ^^^ (mask >>> 4) =
        shift^[8] (UInt8.ofNat n).toUInt16 := by
    decide +kernel
  have hb := h b.toNat b.toNat_lt
  rwa [UInt8.ofNat_toNat] at hb

/-- A step lays the byte over the low half of the state and shifts eight times. -/
theorem step_eq_iterate_shift (s : UInt16) (b : UInt8) :
    step s b = shift^[8] (s ^^^ b.toUInt16) := by
  -- the low half, with the byte, goes through the polynomial; the high half only moves down
  have hsplit : s ^^^ b.toUInt16 =
      (s ^^^ s.toUInt8.toUInt16) ^^^ (b ^^^ s.toUInt8).toUInt16 := by
    rw [UInt8.toUInt16_xor, UInt16.xor_assoc, UInt16.xor_comm b.toUInt16,
      ← UInt16.xor_assoc s.toUInt8.toUInt16, UInt16.xor_self, UInt16.zero_xor]
  have hbit : ∀ i, bit (s ^^^ s.toUInt8.toUInt16) i = (!decide (i < 8) && bit s i) := by
    intro i
    rw [bit_xor, bit_toUInt16, getLsbD_toUInt8]
    cases decide (i < 8) <;> simp
  have hlow : ∀ i < 8, bit (s ^^^ s.toUInt8.toUInt16) i = false := by
    intro i hi
    rw [hbit, decide_eq_true hi]
    rfl
  have hhigh : shift^[8] (s ^^^ s.toUInt8.toUInt16) = s >>> 8 := by
    apply eq_of_bit
    intro i _
    rw [bit_iterate_shift hlow, hbit, bit_shiftRight s (by decide), decide_eq_false (by omega)]
    rfl
  rw [hsplit, iterate_shift_xor, hhigh, ← mask_eq_iterate_shift, step]
  simp only [UInt16.xor_assoc]

/-- Different states stay different when the same byte comes. -/
theorem step_injective_left (b : UInt8) : Function.Injective fun s => step s b := by
  intro s s' h
  simp only [step_eq_iterate_shift] at h
  exact (UInt16.xor_left_inj b.toUInt16).mp (shift_injective.iterate 8 h)

/-- Different bytes lead from the same state to different states. -/
theorem step_injective_right (s : UInt16) : Function.Injective (step s) := by
  intro b b' h
  rw [step_eq_iterate_shift, step_eq_iterate_shift] at h
  exact UInt8.toUInt16_inj.mp ((UInt16.xor_right_inj s).mp (shift_injective.iterate 8 h))

/-! ## Strings -/

/-- The checksum bit by bit: each byte is laid over the low half of the state, and the register is
then shifted once for each of its bits. -/
def serial (s : UInt16) : List UInt8 → UInt16
  | [] => s
  | b :: rest => serial (shift^[8] (s ^^^ b.toUInt16)) rest

/-- Byte by byte and bit by bit, checksums are the same. -/
theorem accumulate_eq_serial (s : UInt16) (bytes : List UInt8) :
    accumulate s bytes = serial s bytes := by
  induction bytes generalizing s with
  | nil => rfl
  | cons b rest ih =>
    rw [serial, ← step_eq_iterate_shift, ← ih]
    rfl

/-- Taking in a sum of bytes takes in both. -/
theorem step_xor (s s' : UInt16) (b b' : UInt8) :
    step (s ^^^ s') (b ^^^ b') = step s b ^^^ step s' b' := by
  have hlaid : s ^^^ s' ^^^ (b ^^^ b').toUInt16 =
      (s ^^^ b.toUInt16) ^^^ (s' ^^^ b'.toUInt16) := by
    rw [UInt8.toUInt16_xor]
    ac_rfl
  rw [step_eq_iterate_shift, hlaid, iterate_shift_xor, ← step_eq_iterate_shift,
    ← step_eq_iterate_shift]

/-- The checksum of a sum, from the sum of two seeds, is the sum of the checksums. -/
theorem accumulate_xor {a b : List UInt8} (h : a.length = b.length) (s s' : UInt16) :
    accumulate (s ^^^ s') (List.zipWith (· ^^^ ·) a b) = accumulate s a ^^^ accumulate s' b := by
  induction a generalizing b s s' with
  | nil =>
    obtain rfl := List.length_eq_zero_iff.mp h.symm
    rfl
  | cons x a ih =>
    obtain ⟨y, b, rfl⟩ := List.exists_cons_of_length_eq_add_one h.symm
    have hstep := ih (Nat.succ.inj h) (step s x) (step s' y)
    rw [← step_xor] at hstep
    exact hstep

/-- **The checksum is the bit-serial one, and it is linear.** From every state, bytes lead where
their bits lead one by one; and the states that two strings of one length lead to, laid over each
other, are what the strings laid over each other lead to. -/
theorem accumulate_serial_linear :
    (∀ (s : UInt16) (bytes : List UInt8), accumulate s bytes = serial s bytes) ∧
      ∀ (s s' : UInt16) (a b : List UInt8), a.length = b.length →
        accumulate (s ^^^ s') (List.zipWith (· ^^^ ·) a b) =
          accumulate s a ^^^ accumulate s' b :=
  ⟨accumulate_eq_serial, fun s s' _ _ h => accumulate_xor h s s'⟩

/-- Two texts of three bytes with different seeds. -/
theorem accumulate_serial_linear_sample :
    ([0x31, 0x32, 0x33] : List UInt8).length = ([0xFF, 0x00, 0x80] : List UInt8).length ∧
      accumulate (seed ^^^ 0x8408) (List.zipWith (· ^^^ ·) [0x31, 0x32, 0x33] [0xFF, 0x00, 0x80]) =
        accumulate seed [0x31, 0x32, 0x33] ^^^ accumulate 0x8408 [0xFF, 0x00, 0x80] :=
  ⟨rfl, accumulate_serial_linear.2 seed 0x8408 _ _ rfl⟩

/-- The digits from one to nine have the check value of the checksum. -/
example : serial seed [0x31, 0x32, 0x33, 0x34, 0x35, 0x36, 0x37, 0x38, 0x39] = 0x6F91 := by
  decide +kernel

end Dialect.Schema.Checksum

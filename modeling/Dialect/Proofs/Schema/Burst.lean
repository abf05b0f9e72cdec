import Dialect.Proofs.Schema.ShiftRegister
import Mathlib.Data.List.GetD

/-!
# Bursts of errors

The checksum of bytes is that of their bits, taken one by one (`accumulate_eq_foldl_feed`). The
state has sixteen places, so up to sixteen bits in a row can be told from the state they lead to,
and what comes behind them hides nothing. Bytes that differ only within a window of sixteen bits
therefore have different checksums (`accumulate_inj_of_differWithin`).
-/

namespace Dialect.Schema

/-! ## Windows -/

/-- A list is what stands in front of a window, in it and behind it. -/
theorem take_append_take_append_drop {α : Type} (l : List α) (start width : Nat) :
    l.take start ++ ((l.drop start).take width ++ l.drop (start + width)) = l := by
  rw [← List.drop_drop, List.take_append_drop, List.take_append_drop]

/-- Two lists are the same at every place in front of `start` and from `stop` on. -/
def DifferWithin {α : Type} (l l' : List α) (start stop : Nat) : Prop :=
  ∀ i, l[i]? ≠ l'[i]? → start ≤ i ∧ i < stop

/-- It is enough to look at the places that one of the lists has. -/
theorem differWithin_iff {α : Type} {l l' : List α} {start stop : Nat} :
    DifferWithin l l' start stop ↔
      ∀ i < max l.length l'.length, l[i]? ≠ l'[i]? → start ≤ i ∧ i < stop := by
  constructor
  · exact fun h i _ => h i
  · intro h i hne
    refine h i ?_ hne
    by_contra hi
    rw [Nat.not_lt, Nat.max_le] at hi
    exact hne (by rw [List.getElem?_eq_none hi.1, List.getElem?_eq_none hi.2])

instance {α : Type} [DecidableEq α] (l l' : List α) (start stop : Nat) :
    Decidable (DifferWithin l l' start stop) :=
  decidable_of_iff' _ differWithin_iff

namespace DifferWithin

variable {α : Type} {l l' : List α} {start stop : Nat}

/-- In front of the window there is no difference. -/
theorem take_eq (h : DifferWithin l l' start stop) : l.take start = l'.take start := by
  apply List.ext_getElem?
  intro i
  rw [List.getElem?_take, List.getElem?_take]
  split
  · next hi => exact by_contra fun hne => absurd (h i hne).1 (Nat.not_le.mpr hi)
  · rfl

/-- Behind the window there is no difference. -/
theorem drop_eq (h : DifferWithin l l' start stop) : l.drop stop = l'.drop stop := by
  apply List.ext_getElem?
  intro i
  rw [List.getElem?_drop, List.getElem?_drop]
  exact by_contra fun hne => absurd (h (stop + i) hne).2 (Nat.not_lt.mpr (Nat.le_add_right stop i))

/-- Where only one part of a list may differ, the other list is the same around its part. -/
theorem exists_eq_append {front mid back l' : List α}
    (h : DifferWithin (front ++ mid ++ back) l' front.length (front.length + mid.length))
    (hlength : l'.length = (front ++ mid ++ back).length) :
    ∃ mid', mid'.length = mid.length ∧ l' = front ++ mid' ++ back := by
  have hfront : l'.take front.length = front := by
    rw [← h.take_eq, List.append_assoc, List.take_left]
  have hback : l'.drop (front.length + mid.length) = back := by
    rw [← h.drop_eq, ← List.length_append, List.drop_left]
  refine ⟨(l'.drop front.length).take mid.length, ?_, ?_⟩
  · rw [List.length_append, List.length_append] at hlength
    rw [List.length_take, List.length_drop]
    omega
  · have hsplit := take_append_take_append_drop l' front.length mid.length
    rw [hfront, hback, ← List.append_assoc] at hsplit
    exact hsplit.symm

/-- What differs in a window differs in a larger one. -/
theorem mono (h : DifferWithin l l' start stop) {start' stop' : Nat} (hstart : start' ≤ start)
    (hstop : stop ≤ stop') : DifferWithin l l' start' stop' := by
  intro i hi
  obtain ⟨hlow, hhigh⟩ := h i hi
  exact ⟨Nat.le_trans hstart hlow, Nat.lt_of_lt_of_le hhigh hstop⟩

/-- What two lists have in common in front and behind can be taken off. -/
theorem of_append {front back : List α} (hlength : l.length = l'.length)
    (h : DifferWithin (front ++ l ++ back) (front ++ l' ++ back) start stop) :
    DifferWithin l l' (start - front.length) (stop - front.length) := by
  intro i hne
  have hi : i < l.length := by
    by_contra hi
    rw [List.getElem?_eq_none (Nat.not_lt.mp hi),
      List.getElem?_eq_none (hlength ▸ Nat.not_lt.mp hi)] at hne
    exact hne rfl
  have hplace : ∀ m : List α, i < m.length → (front ++ m ++ back)[front.length + i]? = m[i]? := by
    intro m hm
    rw [List.append_assoc, List.getElem?_append_right (Nat.le_add_right _ i),
      Nat.add_sub_cancel_left, List.getElem?_append_left hm]
  have hwhole := h (front.length + i)
  rw [hplace l hi, hplace l' (hlength ▸ hi)] at hwhole
  obtain ⟨hlow, hhigh⟩ := hwhole hne
  omega

end DifferWithin

namespace Checksum

/-! ## Bits -/

/-- The bits of a byte, the lowest first. -/
def byteBits (b : UInt8) : List Bool := (List.range 8).map b.toBitVec.getLsbD

/-- The bits of bytes one after the other. -/
def bits (bytes : List UInt8) : List Bool := bytes.flatMap byteBits

theorem length_byteBits (b : UInt8) : (byteBits b).length = 8 := by
  rw [byteBits, List.length_map, List.length_range]

/-- The bits of a byte stand by their places, the lowest first. -/
theorem getElem?_byteBits (b : UInt8) {j : Nat} (hj : j < 8) :
    (byteBits b)[j]? = some (b.toBitVec.getLsbD j) := by
  rw [byteBits, List.getElem?_map, List.getElem?_range hj, Option.map_some]

theorem bits_cons (b : UInt8) (rest : List UInt8) :
    bits (b :: rest) = byteBits b ++ bits rest :=
  List.flatMap_cons

/-- The bits of bytes in a row are in a row. -/
theorem bits_append (a b : List UInt8) : bits (a ++ b) = bits a ++ bits b :=
  List.flatMap_append

/-- There are eight bits to a byte. -/
theorem length_bits (bytes : List UInt8) : (bits bytes).length = 8 * bytes.length := by
  induction bytes with
  | nil => rfl
  | cons b rest ih =>
    rw [bits_cons, List.length_append, ih, length_byteBits, List.length_cons]
    omega

/-- The bit `j` of the byte `k` stands at the place `8 * k + j`. -/
theorem getElem?_bits (bytes : List UInt8) (k : Nat) {j : Nat} (hj : j < 8) :
    (bits bytes)[8 * k + j]? = bytes[k]?.map fun b => b.toBitVec.getLsbD j := by
  induction bytes generalizing k with
  | nil => rfl
  | cons b rest ih =>
    have hlength := length_byteBits b
    rw [bits_cons]
    cases k with
    | zero =>
      rw [List.getElem?_append_left (by omega), Nat.mul_zero, Nat.zero_add, getElem?_byteBits b hj]
      rfl
    | succ k =>
      rw [List.getElem?_append_right (by omega), hlength, List.getElem?_cons_succ, ← ih]
      congr 1
      omega

/-- A byte is known by its bits. -/
theorem getElem?_eq_of_bits {a b : List UInt8} {k : Nat}
    (h : ∀ j < 8, (bits a)[8 * k + j]? = (bits b)[8 * k + j]?) : a[k]? = b[k]? := by
  have hbit : ∀ j < 8, (a[k]?.map fun x => x.toBitVec.getLsbD j) =
      b[k]?.map fun x => x.toBitVec.getLsbD j := fun j hj => by
    rw [← getElem?_bits a k hj, ← getElem?_bits b k hj, h j hj]
  have hfirst := hbit 0 (Nat.zero_lt_succ 7)
  cases ha : a[k]? with
  | none =>
    rw [ha, Option.map_none] at hfirst
    exact (Option.map_eq_none_iff.mp hfirst.symm).symm
  | some x =>
    rw [ha, Option.map_some] at hfirst
    obtain ⟨y, hb, -⟩ := Option.map_eq_some_iff.mp hfirst.symm
    rw [ha, hb] at hbit
    rw [hb]
    congr 1
    exact UInt8.toBitVec_inj.mp (BitVec.eq_of_getLsbD_eq fun j hj => Option.some.inj (hbit j hj))

/-- Bytes are known from their bits. -/
theorem bits_injective : Function.Injective bits := by
  intro a b h
  apply List.ext_getElem?
  intro k
  exact getElem?_eq_of_bits fun j _ => by rw [h]

/-- Bytes of which only the bits of some differ, differ only in these. -/
theorem differWithin_of_bits {a b : List UInt8} {start stop : Nat}
    (h : DifferWithin (bits a) (bits b) (8 * start) (8 * stop)) : DifferWithin a b start stop := by
  intro k hk
  obtain ⟨j, hj, hne⟩ : ∃ j < 8, (bits a)[8 * k + j]? ≠ (bits b)[8 * k + j]? := by
    by_contra hall
    exact hk (getElem?_eq_of_bits fun j hj => by_contra fun hne => hall ⟨j, hj, hne⟩)
  have := h (8 * k + j) hne
  omega

/-! ## Bit by bit -/

/-- The state after one more bit. -/
def feed (s : UInt16) (b : Bool) : UInt16 := shift (s ^^^ if b then 1 else 0)

/-- Feeding one bit shifts the register, and puts the polynomial on it if the bits at its end
differ. -/
theorem bit_feed (s : UInt16) (b : Bool) (i : Nat) :
    bit (feed s b) i = (bit s (i + 1) ^^ ((bit s 0 ^^ b) && bit polynomial i)) := by
  have hzero : bit (if b then 1 else 0) 0 = b := by cases b <;> rfl
  have hsucc : bit (if b then 1 else 0) (i + 1) = false := by cases b <;> simp [bit]
  rw [feed, bit_shift, bit_xor, bit_xor, hzero, hsucc, Bool.xor_false]

/-- The state with the given bits, the lowest first. -/
def ofBits (w : List Bool) : UInt16 := ⟨(BitVec.ofBoolListLE w).setWidth 16⟩

/-- A register that is made of bits has these bits, and zeros behind them. -/
theorem bit_ofBits {w : List Bool} (h : w.length ≤ 16) (i : Nat) :
    bit (ofBits w) i = w.getD i false := by
  rw [bit, ofBits, BitVec.getLsbD_setWidth, BitVec.getLsbD_ofBoolListLE]
  by_cases hi : i < 16
  · rw [decide_eq_true hi, Bool.true_and]
  · rw [decide_eq_false hi, Bool.false_and, List.getD_eq_default _ _ (by omega)]

/-- Up to sixteen bits can be laid over the state at once before they are shifted out. -/
theorem foldl_feed {w : List Bool} (h : w.length ≤ 16) (s : UInt16) :
    w.foldl feed s = shift^[w.length] (s ^^^ ofBits w) := by
  induction w generalizing s with
  | nil => exact UInt16.xor_zero.symm
  | cons b w ih =>
    have hw : w.length ≤ 16 := Nat.le_of_succ_le h
    have hfirst : shift (s ^^^ ofBits (b :: w)) = feed s b ^^^ ofBits w := by
      apply eq_of_bit
      intro i _
      rw [bit_shift, bit_xor, bit_xor, bit_xor, bit_feed, bit_ofBits h, bit_ofBits h,
        bit_ofBits hw]
      simp only [List.getD_cons_zero, List.getD_cons_succ, Bool.xor_assoc, Bool.xor_comm]
    rw [List.foldl_cons, ih hw, List.length_cons, Function.iterate_succ_apply, hfirst]

/-- A step takes the bits of its byte one by one. -/
theorem step_eq_foldl_feed (s : UInt16) (b : UInt8) : step s b = (byteBits b).foldl feed s := by
  have hle : (byteBits b).length ≤ 16 := by rw [length_byteBits]; decide
  -- the bits of the byte, lowest first, are the number it is
  have hbits : ofBits (byteBits b) = b.toUInt16 := by
    apply eq_of_bit
    intro i _
    rw [bit_ofBits hle, bit_toUInt16, List.getD_eq_getElem?_getD]
    by_cases hi : i < 8
    · rw [getElem?_byteBits b hi]
      rfl
    · rw [List.getElem?_eq_none (by rw [length_byteBits]; omega),
        BitVec.getLsbD_of_ge _ i (by omega)]
      rfl
  rw [foldl_feed hle, hbits, length_byteBits, step_eq_iterate_shift]

/-- A checksum takes in the bits of its bytes one by one. -/
theorem accumulate_eq_foldl_feed (s : UInt16) (bytes : List UInt8) :
    accumulate s bytes = (bits bytes).foldl feed s := by
  induction bytes generalizing s with
  | nil => rfl
  | cons b rest ih =>
    rw [bits_cons, List.foldl_append, ← step_eq_foldl_feed, ← ih]
    rfl

/-! ## Bursts -/

/-- Different states stay different when the same bits come. -/
theorem foldl_feed_injective (w : List Bool) : Function.Injective fun s => w.foldl feed s := by
  induction w with
  | nil => exact fun s s' h => h
  | cons b w ih =>
    intro s s' h
    exact (UInt16.xor_left_inj _).mp (shift_injective (ih h))

/-- Up to sixteen bits can be told from the state they lead to. -/
theorem foldl_feed_inj {u w : List Bool} (hlength : u.length = w.length) (hle : u.length ≤ 16)
    {s : UInt16} (h : u.foldl feed s = w.foldl feed s) : u = w := by
  rw [foldl_feed hle, foldl_feed (hlength ▸ hle), hlength] at h
  have hstate : ofBits u = ofBits w :=
    (UInt16.xor_right_inj s).mp (shift_injective.iterate w.length h)
  apply List.ext_getElem hlength
  intro i hu hw
  have hbit : bit (ofBits u) i = bit (ofBits w) i := by rw [hstate]
  rwa [bit_ofBits hle, bit_ofBits (hlength ▸ hle), List.getD_eq_getElem _ _ hu,
    List.getD_eq_getElem _ _ hw] at hbit

/-- Bytes that differ only within sixteen bits lead to the same state only if they are the same. -/
theorem accumulate_inj_of_differWithin {a b : List UInt8} (hlength : a.length = b.length)
    {start : Nat} (hwindow : DifferWithin (bits a) (bits b) start (start + 16)) {s : UInt16}
    (h : accumulate s a = accumulate s b) : a = b := by
  have hsplit := fun w : List Bool => take_append_take_append_drop w start 16
  rw [accumulate_eq_foldl_feed, accumulate_eq_foldl_feed, ← hsplit (bits a), ← hsplit (bits b),
    ← hwindow.take_eq, ← hwindow.drop_eq] at h
  simp only [List.foldl_append] at h
  -- the bits behind the window hide nothing, so the states right behind it are the same
  have hmid : ((bits a).drop start).take 16 = ((bits b).drop start).take 16 := by
    refine foldl_feed_inj ?_ (List.length_take_le 16 _) (foldl_feed_injective _ h)
    simp only [List.length_take, List.length_drop, length_bits, hlength]
  apply bits_injective
  rw [← hsplit (bits a), ← hsplit (bits b), hwindow.take_eq, hwindow.drop_eq, hmid]

end Checksum
end Dialect.Schema

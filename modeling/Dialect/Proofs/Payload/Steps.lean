import Dialect.Payload.Codec
import Dialect.Proofs.Outcome
import Mathlib.Algebra.GroupWithZero.Nat
import Mathlib.Data.List.Forall2

/-!
# Steps over numbers

What the steps of a plan read and write, as statements about lists of numbers. Each step stands for
one number (`Writes` when packing, a matching form when unpacking), and the bytes are those of the
numbers one behind the other. Neither packing nor unpacking has to be unfolded after this.
-/

namespace Dialect.Payload

open Dialect.Schema (Field Message Wire)

/-! ## Numbers and bytes -/

/-- Only the low bits of a number go into a form that is too narrow for it. -/
theorem Scalar.bits_ofBits (w : Wire) (n : Nat) :
    (Scalar.ofBits w n).bits = n % capacity w.width := by
  cases w <;> simp [Scalar.ofBits, Scalar.bits, capacity, Wire.width]

/-- A number read in a form has that form. -/
theorem Scalar.wire_decode (order : ByteOrder) (w : Wire) (bytes : List UInt8) :
    (Scalar.decode order w bytes).wire = w :=
  Scalar.wire_ofBits w _

/-- Every byte pattern of the right width is the pattern of the number read from it. -/
theorem Scalar.encode_decode (order : ByteOrder) (w : Wire) (bytes : List UInt8)
    (hwidth : bytes.length = w.width) : (Scalar.decode order w bytes).encode order = bytes := by
  have hlength : (order.arrange bytes).length = w.width := by
    rw [ByteOrder.length_arrange, hwidth]
  have hlt := ofBytes_lt (order.arrange bytes)
  rw [hlength] at hlt
  rw [Scalar.encode, Scalar.wire_decode, Scalar.decode, Scalar.bits_ofBits, Nat.mod_eq_of_lt hlt,
    ← hlength, bytesOf_ofBytes, ByteOrder.arrange_arrange]

/-- Numbers as bytes, one behind the other. -/
def encodeAll (order : ByteOrder) (xs : List Scalar) : List UInt8 :=
  xs.flatMap (Scalar.encode order)

theorem encodeAll_cons (order : ByteOrder) (x : Scalar) (xs : List Scalar) :
    encodeAll order (x :: xs) = x.encode order ++ encodeAll order xs := rfl

theorem encodeAll_append (order : ByteOrder) (xs ys : List Scalar) :
    encodeAll order (xs ++ ys) = encodeAll order xs ++ encodeAll order ys := by
  rw [encodeAll, List.flatMap_append, encodeAll, encodeAll]

/-- The number of bytes depends on the forms alone. -/
theorem length_encodeAll (order : ByteOrder) (xs : List Scalar) :
    (encodeAll order xs).length = (xs.map fun x => x.wire.width).sum := by
  simp only [encodeAll, List.length_flatMap, Scalar.length_encode]

/-! ## Steps -/

/-- What is related to one list behind another falls into two parts. -/
theorem forall₂_append_iff {α β : Type} {R : α → β → Prop} {as bs : List α} {cs : List β} :
    List.Forall₂ R (as ++ bs) cs ↔
      ∃ ds es, List.Forall₂ R as ds ∧ List.Forall₂ R bs es ∧ cs = ds ++ es := by
  constructor
  · intro h
    induction as generalizing cs with
    | nil => exact ⟨[], cs, .nil, h, rfl⟩
    | cons a as ih =>
      cases h with
      | cons hac h =>
        obtain ⟨ds, es, hds, hes, rfl⟩ := ih h
        exact ⟨_ :: ds, es, .cons hac hds, hes, rfl⟩
  · rintro ⟨ds, es, hds, hes, rfl⟩
    exact List.rel_append hds hes

/-- The step finds the number in the values, in the form it writes. -/
structure Writes (values : Values) (s : Step) (x : Scalar) : Prop where
  element_eq : s.element? values = some (.scalar x)
  wire_eq : x.wire = s.wire

/-- A step writes a number it finds, and fails if it finds none in its form. -/
theorem Step.pack_eq_ok_iff {order : ByteOrder} {values : Values} {s : Step} {bytes : List UInt8} :
    s.pack order values = .ok bytes ↔ ∃ x, Writes values s x ∧ bytes = x.encode order := by
  rw [Step.pack]
  constructor
  · intro h
    split at h
    · exact absurd h (by simp)
    · next x hx =>
      split at h
      · next hwire => exact ⟨x, ⟨hx, hwire⟩, (Except.ok.inj h).symm⟩
      · exact absurd h (by simp)
    · exact absurd h (by simp)
  · rintro ⟨x, ⟨hx, hwire⟩, rfl⟩
    simp only [hx, hwire, if_true]

/-- Steps write one number each, one behind the other. -/
theorem packSteps_eq_ok_iff {order : ByteOrder} {values : Values} {steps : List Step}
    {bytes : List UInt8} :
    packSteps order values steps = .ok bytes ↔
      ∃ xs, List.Forall₂ (Writes values) steps xs ∧ bytes = encodeAll order xs := by
  induction steps generalizing bytes with
  | nil => simp [packSteps, encodeAll, eq_comm]
  | cons s rest ih =>
    rw [packSteps]
    constructor
    · intro h
      obtain ⟨first, hfirst, h⟩ := bind_eq_ok_iff.mp h
      obtain ⟨more, hmore, h⟩ := bind_eq_ok_iff.mp h
      obtain ⟨x, hx, rfl⟩ := Step.pack_eq_ok_iff.mp hfirst
      obtain ⟨xs, hxs, rfl⟩ := ih.mp hmore
      exact ⟨x :: xs, .cons hx hxs, (Except.ok.inj h).symm⟩
    · rintro ⟨xs, hxs, rfl⟩
      cases hxs with
      | cons hx hxs =>
        rw [Step.pack_eq_ok_iff.mpr ⟨_, hx, rfl⟩, ih.mpr ⟨_, hxs, rfl⟩]
        rfl

/-- Steps read numbers in their forms, those whose bytes stand in front. -/
theorem readSteps_eq_ok_iff {order : ByteOrder} {steps : List Step} {bytes : List UInt8}
    {xs : List Scalar} :
    readSteps order steps bytes = .ok xs ↔
      List.Forall₂ (fun s x => x.wire = s.wire) steps xs ∧ encodeAll order xs <+: bytes := by
  induction steps generalizing bytes xs with
  | nil => cases xs <;> simp [readSteps, encodeAll]
  | cons s rest ih =>
    rw [readSteps]
    constructor
    · intro h
      split at h
      · exact absurd h (by simp)
      · next hlong =>
        obtain ⟨ys, hys, h⟩ := bind_eq_ok_iff.mp h
        obtain ⟨hwires, behind, hbehind⟩ := ih.mp hys
        obtain rfl := Except.ok.inj h
        refine ⟨.cons (Scalar.wire_decode order s.wire _) hwires, behind, ?_⟩
        -- writing the number that was read gives the bytes it was read from
        have htake : (bytes.take s.wire.width).length = s.wire.width := by
          rw [List.length_take]
          omega
        rw [encodeAll_cons, Scalar.encode_decode order s.wire _ htake, List.append_assoc, hbehind,
          List.take_append_drop]
    · rintro ⟨hwires, behind, rfl⟩
      cases hwires with
      | @cons _ x _ ys hwire hwires =>
        have hlength := Scalar.length_encode order x
        rw [hwire] at hlength
        rw [encodeAll_cons, List.append_assoc, if_neg (by rw [List.length_append]; omega),
          ← hlength, List.drop_left, List.take_left, ih.mpr ⟨hwires, behind, rfl⟩, ← hwire]
        exact congrArg (fun y => Except.ok (y :: ys)) (Scalar.decode_encode order x)

/-- Steps read any bytes that are long enough. -/
theorem exists_readSteps (order : ByteOrder) (steps : List Step) (bytes : List UInt8)
    (hlong : (steps.map fun s => s.wire.width).sum ≤ bytes.length) :
    ∃ xs, readSteps order steps bytes = .ok xs := by
  induction steps generalizing bytes with
  | nil => exact ⟨[], rfl⟩
  | cons s rest ih =>
    rw [List.map_cons, List.sum_cons] at hlong
    obtain ⟨xs, hxs⟩ := ih (bytes.drop s.wire.width) (by rw [List.length_drop]; omega)
    rw [readSteps, if_neg (by omega), hxs]
    exact ⟨_, rfl⟩

end Dialect.Payload

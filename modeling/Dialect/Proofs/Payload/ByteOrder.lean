import Dialect.Proofs.Payload.Alignment

/-!
# The two byte orders

Highest byte first, a number has the bytes that it has lowest byte first, in reverse. The slots of a
plan leave no gap, so reversing the bytes of each slot (`reverseSlots`) leads from a payload in one
order to the payload of the same numbers in the other (`reverseSlots_encodeAll`). Whether values can
be packed at all does not depend on the order, nor does what is wrong with them
(`pack_eq_error_congr`).
-/

namespace Dialect.Payload

open Dialect.Schema (Field Message)

variable {values : Values} {s : Step} {steps : List Step} {xs : List Scalar} {fault : Fault}

/-! ## Slots in reverse -/

/-- The bytes with those at the place of the step in reverse. -/
def Step.reverseSlot (s : Step) (bytes : List UInt8) : List UInt8 :=
  bytes.take s.offset ++ ((bytes.drop s.offset).take s.wire.width).reverse ++
    bytes.drop (s.offset + s.wire.width)

/-- The bytes with those at the place of each step in reverse. -/
def reverseSlots (steps : List Step) (bytes : List UInt8) : List UInt8 :=
  steps.foldl (fun bytes s => s.reverseSlot bytes) bytes

/-- The one byte order is the other from back to front. -/
theorem Scalar.encode_big (x : Scalar) : x.encode .big = (x.encode .little).reverse := rfl

/-- The bytes at the place of a step are turned around, and no others. -/
theorem Step.reverseSlot_append {front slot back : List UInt8} (hfront : front.length = s.offset)
    (hslot : slot.length = s.wire.width) :
    s.reverseSlot (front ++ (slot ++ back)) = front ++ slot.reverse ++ back := by
  have hboth : s.offset + s.wire.width = (front ++ slot).length := by
    rw [List.length_append, hfront, hslot]
  unfold reverseSlot
  rw [hboth, ← hfront, ← hslot, List.take_left, List.drop_left, List.take_left,
    ← List.append_assoc front slot back, List.drop_left]

/-- Steps without gaps reverse the numbers that they stand for, one by one, and nothing in front of
them. -/
theorem reverseSlots_encodeAll {offset : Nat} (front : List UInt8) (hfront : front.length = offset)
    (hgapless : Gapless offset steps)
    (hwires : List.Forall₂ (fun s x => x.wire = s.wire) steps xs) :
    reverseSlots steps (front ++ encodeAll .little xs) = front ++ encodeAll .big xs := by
  -- what has been reversed joins the bytes in front, which later steps leave as they are
  induction hwires generalizing offset front with
  | nil => rfl
  | @cons s x steps xs hwire _ ih =>
    obtain ⟨hoffset, hrest⟩ := hgapless
    have hslot : (x.encode .little).length = s.wire.width := by
      rw [Scalar.length_encode, hwire]
    have hnext : (front ++ x.encode .big).length = offset + s.wire.width := by
      rw [List.length_append, hfront, Scalar.length_encode, hwire]
    have hfirst : s.reverseSlot (front ++ encodeAll .little (x :: xs)) =
        front ++ x.encode .big ++ encodeAll .little xs := by
      rw [encodeAll_cons, Step.reverseSlot_append (hfront.trans hoffset.symm) hslot,
        ← Scalar.encode_big]
    calc reverseSlots (s :: steps) (front ++ encodeAll .little (x :: xs))
        = reverseSlots steps (front ++ x.encode .big ++ encodeAll .little xs) := by
          rw [← hfirst]
          rfl
      _ = front ++ x.encode .big ++ encodeAll .big xs := ih _ hnext hrest
      _ = front ++ encodeAll .big (x :: xs) := by rw [encodeAll_cons, List.append_assoc]

/-- Turning around the bytes of every number writes the numbers in the other byte order. -/
theorem reverseSlots_plan {m : Message}
    (hwires : List.Forall₂ (fun s x => x.wire = s.wire) (plan m) xs) :
    reverseSlots (plan m) (encodeAll .little xs) = encodeAll .big xs :=
  reverseSlots_encodeAll [] rfl (gapless_stepsFrom 0 m.fields) hwires

/-! ## Packing -/

/-- What is wrong with an element does not depend on the order. -/
theorem Step.pack_eq_error_congr (order order' : ByteOrder) :
    s.pack order values = .error fault ↔ s.pack order' values = .error fault := by
  unfold Step.pack
  split
  · rfl
  · split
    · simp
    · rfl
  · rfl

/-- Whether packing fails, and how, does not depend on the byte order. -/
theorem packSteps_eq_error_congr (order order' : ByteOrder) :
    packSteps order values steps = .error fault ↔ packSteps order' values steps = .error fault := by
  induction steps with
  | nil => simp [packSteps]
  | cons s rest ih =>
    -- later elements are reached in one order exactly if they are in the other
    have hfirst : (∃ bytes, s.pack order values = .ok bytes) ↔
        ∃ bytes, s.pack order' values = .ok bytes := by
      rw [exists_eq_ok_iff, exists_eq_ok_iff]
      exact forall_congr' fun fault => not_congr (Step.pack_eq_error_congr order order')
    have hpure : ∀ {first more : List UInt8},
        (pure (first ++ more) : Except Fault (List UInt8)) ≠ .error fault := pure_ne_error
    simp only [packSteps, bind_eq_error_iff, hpure, and_false, exists_const, or_false,
      exists_and_right, hfirst, ih, Step.pack_eq_error_congr order order']

/-- Values are refused in both orders or in none, and for the same reason. -/
theorem pack_eq_error_congr {m : Message} (order order' : ByteOrder) :
    pack order m values = .error fault ↔ pack order' m values = .error fault := by
  unfold pack
  split
  · rfl
  · exact packSteps_eq_error_congr order order'

/-- What is packed highest byte first is what is packed lowest byte first, with its slots in
reverse. -/
theorem pack_big_of_little {m : Message} {bytes : List UInt8}
    (h : pack .little m values = .ok bytes) :
    pack .big m values = .ok (reverseSlots (plan m) bytes) := by
  obtain ⟨hchecked, hsteps⟩ := pack_eq_ok_iff_packSteps.mp h
  obtain ⟨xs, hxs, rfl⟩ := packSteps_eq_ok_iff.mp hsteps
  rw [reverseSlots_plan (hxs.imp fun _ _ hx => hx.wire_eq)]
  exact pack_eq_ok_iff_packSteps.mpr ⟨hchecked, packSteps_eq_ok_iff.mpr ⟨xs, hxs, rfl⟩⟩

/-! ## Unpacking -/

variable {m : Message}

/-- Every payload of the declared length consists of numbers in the forms of the plan. -/
theorem exists_encodeAll_eq (order : ByteOrder) (hne : ∀ f ∈ m.fields, f.arity ≠ 0)
    {bytes : List UInt8} (hlength : bytes.length = m.payloadLength) :
    ∃ xs, List.Forall₂ (fun s x => x.wire = s.wire) (plan m) xs ∧ bytes = encodeAll order xs := by
  have htotal : ((plan m).map fun s => s.wire.width).sum = bytes.length := by
    rw [plan, sum_width_stepsFrom, planLength_eq hne, hlength]
  obtain ⟨xs, hread⟩ := exists_readSteps order (plan m) bytes htotal.le
  obtain ⟨hwires, hfront⟩ := readSteps_eq_ok_iff.mp hread
  refine ⟨xs, hwires, (hfront.eq_of_length ?_).symm⟩
  rw [length_encodeAll_of_wires order hwires, htotal]

/-- Numbers in the forms of the plan are read from their own bytes. -/
theorem unpack_encodeAll (order : ByteOrder) (hne : ∀ f ∈ m.fields, f.arity ≠ 0)
    (hwires : List.Forall₂ (fun s x => x.wire = s.wire) (plan m) xs) :
    unpack order m (encodeAll order xs) = .ok (gather m.fields xs) := by
  have hlength : (encodeAll order xs).length = m.payloadLength := by
    rw [length_encodeAll_of_wires order hwires, plan, sum_width_stepsFrom, planLength_eq hne]
  have hread : readSteps order (plan m) (encodeAll order xs) = .ok xs :=
    readSteps_eq_ok_iff.mpr ⟨hwires, List.prefix_refl _⟩
  rw [unpack, if_neg (not_not.mpr hlength), hread]
  rfl

/-- **The order of bytes matters inside of numbers only.** Let a message be laid out of fields that
are not without elements. Values are refused in both orders, and for the same reason, or packed in
both; the payload that has the highest bytes first is then the other one with the bytes of each slot
of the plan in reverse. And from every payload of the declared length the same values are read
lowest byte first as are read highest byte first from the payload with its slots in reverse, which
has the same length, and in each slot the same bytes in reverse. -/
theorem pack_unpack_reverseSlots {id : UInt8} {name : String} {description : Option String}
    {declared : List Field} {m : Message}
    (hm : Message.layOut id name description declared = .ok m)
    (hne : ∀ f ∈ declared, f.arity ≠ 0) :
    (∀ values,
      (∃ fault, pack .little m values = .error fault ∧ pack .big m values = .error fault) ∨
      ∃ bytes, pack .little m values = .ok bytes ∧
        pack .big m values = .ok (reverseSlots (plan m) bytes)) ∧
    ∀ bytes : List UInt8, bytes.length = m.payloadLength →
      (∃ read, unpack .little m bytes = .ok read ∧
        unpack .big m (reverseSlots (plan m) bytes) = .ok read) ∧
      (reverseSlots (plan m) bytes).length = bytes.length ∧
      ∀ s ∈ plan m, ((reverseSlots (plan m) bytes).drop s.offset).take s.wire.width =
        ((bytes.drop s.offset).take s.wire.width).reverse := by
  have hfields := fun f hf => hne f ((Message.mem_fields_of_layOut hm).mp hf)
  constructor
  · intro values
    cases h : pack .little m values with
    | error fault => exact .inl ⟨fault, rfl, (pack_eq_error_congr .little .big).mp h⟩
    | ok bytes => exact .inr ⟨bytes, rfl, pack_big_of_little h⟩
  · intro bytes hlength
    obtain ⟨xs, hwires, rfl⟩ := exists_encodeAll_eq .little hfields hlength
    rw [reverseSlots_plan hwires]
    refine ⟨⟨_, unpack_encodeAll .little hfields hwires, unpack_encodeAll .big hfields hwires⟩,
      ?_, fun s hs => ?_⟩
    · rw [length_encodeAll, length_encodeAll]
    · obtain ⟨x, -, hbytes⟩ := exists_encode_at_step (fun _ _ hwire => hwire) hwires hs
      rw [hbytes, hbytes, Scalar.encode_big]

/-- Two byte orders of one message, and one fault in both. -/
theorem pack_unpack_reverseSlots_sample :
    Message.layOut 7 "SAMPLE" none sampleFields = .ok sampleMessage ∧
      (∀ f ∈ sampleFields, f.arity ≠ 0) ∧
      pack .little sampleMessage sampleValues = .ok [0xFE, 0xFF, 44, 1, 9] ∧
      pack .big sampleMessage sampleValues = .ok [0xFF, 0xFE, 1, 44, 9] ∧
      reverseSlots (plan sampleMessage) [0xFE, 0xFF, 44, 1, 9] = [0xFF, 0xFE, 1, 44, 9] ∧
      (∃ fault, pack .little sampleMessage [] = .error fault ∧
        pack .big sampleMessage [] = .error fault) ∧
      ∃ read, unpack .little sampleMessage [0xFE, 0xFF, 44, 1, 9] = .ok read ∧
        unpack .big sampleMessage [0xFF, 0xFE, 1, 44, 9] = .ok read := by
  have hm : Message.layOut 7 "SAMPLE" none sampleFields = .ok sampleMessage := by rfl
  have hne : ∀ f ∈ sampleFields, f.arity ≠ 0 := by decide
  have hlittle : pack .little sampleMessage sampleValues = .ok [0xFE, 0xFF, 44, 1, 9] := by rfl
  obtain ⟨hpack, hunpack⟩ := pack_unpack_reverseSlots hm hne
  refine ⟨hm, hne, hlittle, ?_, by rfl, ?_, (hunpack [0xFE, 0xFF, 44, 1, 9] (by decide)).1⟩
  · rcases hpack sampleValues with ⟨fault, hfault, -⟩ | ⟨bytes, hbytes, hbig⟩
    · exact absurd (hlittle.symm.trans hfault) (by simp)
    · obtain rfl := Except.ok.inj (hlittle.symm.trans hbytes)
      exact hbig
  · obtain ⟨fault, hfault⟩ : ∃ fault, pack .little sampleMessage [] = .error fault := ⟨_, rfl⟩
    rcases hpack [] with hboth | ⟨bytes, hbytes, -⟩
    · exact hboth
    · exact absurd (hfault.symm.trans hbytes) (by simp)

end Dialect.Payload

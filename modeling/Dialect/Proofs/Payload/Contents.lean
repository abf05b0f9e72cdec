import Dialect.Proofs.Payload.Steps

/-!
# What a payload holds

The contents of a message: a list of numbers for each field, as many as the field has steps and all
in its form (`Fits`). Bytes are one way to write contents down, values by name are another. Packing
goes from the second to the first (`pack_eq_ok_iff`), unpacking back (`unpack_eq_ok_iff`), and both
succeed for messages without empty arrays only.
-/

namespace Dialect.Payload

open Dialect.Schema (Field Message Wire)

/-! ## Fields -/

/-- The numbers can stand for the field: as many as it has steps, all in its form. -/
structure Fits (f : Field) (xs : List Scalar) : Prop where
  length_eq : xs.length = stepCount f
  wire_eq : ∀ x ∈ xs, x.wire = f.type.wire

theorem fits_iff {f : Field} {xs : List Scalar} :
    Fits f xs ↔ xs.length = stepCount f ∧ ∀ x ∈ xs, x.wire = f.type.wire :=
  ⟨fun h => ⟨h.length_eq, h.wire_eq⟩, fun h => ⟨h.1, h.2⟩⟩

/-- A field that is not empty has one step for each element. -/
theorem stepCount_of_ne_zero {f : Field} (h : f.arity ≠ 0) : stepCount f = f.arity.toNat := by
  have hpos : f.arity.toNat ≠ 0 := fun h0 => h (UInt8.toNat_inj.mp h0)
  rw [stepCount, Field.isArray]
  split
  · rfl
  · next hsmall =>
    have hle : f.arity.toNat ≤ 1 := by simpa [UInt8.lt_iff_toNat_lt] using hsmall
    omega

/-- An empty array has one step nevertheless. -/
theorem stepCount_of_eq_zero {f : Field} (h : f.arity = 0) : stepCount f = 1 := by
  rw [stepCount, Field.isArray, h]
  rfl

/-- What a relation says about the steps of each field, it says about the steps of all of them. -/
theorem forall₂_stepsFrom_iff {R : Step → Scalar → Prop} {P : Field → List Scalar → Prop}
    (hfield : ∀ f offset xs, List.Forall₂ R (fieldSteps f offset) xs ↔ P f xs) (offset : Nat)
    (fields : List Field) (xs : List Scalar) :
    List.Forall₂ R (stepsFrom offset fields) xs ↔
      ∃ xss, List.Forall₂ P fields xss ∧ xs = xss.flatten := by
  induction fields generalizing offset xs with
  | nil => simp [stepsFrom]
  | cons f rest ih =>
    rw [stepsFrom]
    constructor
    · intro h
      obtain ⟨own, more, hown, hmore, rfl⟩ := forall₂_append_iff.mp h
      obtain ⟨xss, hxss, rfl⟩ := (ih _ _).mp hmore
      exact ⟨own :: xss, .cons ((hfield f offset own).mp hown) hxss, rfl⟩
    · rintro ⟨xss, hxss, rfl⟩
      cases hxss with
      | @cons _ own _ more hown hmore =>
        exact forall₂_append_iff.mpr
          ⟨own, more.flatten, (hfield f offset own).mpr hown, (ih _ _).mpr ⟨more, hmore, rfl⟩, rfl⟩

/-- The steps of a field read just the numbers that can stand for it. -/
theorem forall₂_wire_fieldSteps_iff (f : Field) (offset : Nat) (xs : List Scalar) :
    List.Forall₂ (fun s x => x.wire = s.wire) (fieldSteps f offset) xs ↔ Fits f xs := by
  -- element by element; a scalar has the one step of its only element
  have helements : ∀ (count index offset : Nat) (xs : List Scalar),
      List.Forall₂ (fun s x => x.wire = s.wire) (elementSteps f index offset count) xs ↔
        xs.length = count ∧ ∀ x ∈ xs, x.wire = f.type.wire := by
    intro count
    induction count with
    | zero => simp [elementSteps]
    | succ count ih =>
      intro index offset xs
      cases xs with
      | nil => simp [elementSteps]
      | cons x xs => simp [elementSteps, ih, and_left_comm]
  rw [fits_iff, ← helements (stepCount f) 1 offset, fieldSteps, stepCount]
  split
  · rfl
  · cases xs <;> simp [elementSteps]

/-! ## Lengths -/

/-- The number of bytes the steps of some fields read. -/
def planLength (fields : List Field) : Nat := (fields.map fun f => f.type.width * stepCount f).sum

/-- Contents take as many bytes as the steps read. -/
theorem length_encodeAll_flatten (order : ByteOrder) {fields : List Field}
    {xss : List (List Scalar)} (h : List.Forall₂ Fits fields xss) :
    (encodeAll order xss.flatten).length = planLength fields := by
  induction h with
  | nil => rfl
  | @cons f xs fields xss hfits _ ih =>
    have hown : xs.map (fun x => x.wire.width) = List.replicate (stepCount f) f.type.width := by
      rw [List.eq_replicate_iff, List.length_map, List.forall_mem_map]
      exact ⟨hfits.length_eq, fun x hx => congrArg Wire.width (hfits.wire_eq x hx)⟩
    rw [List.flatten_cons, encodeAll_append, List.length_append, ih, length_encodeAll, hown,
      List.sum_replicate_nat, Nat.mul_comm, planLength, planLength, List.map_cons,
      List.sum_cons]

/-- Every number takes some bytes. -/
theorem width_pos (p : Schema.Primitive) : 0 < p.width := by
  rw [Schema.Primitive.width]
  cases p.wire <;> decide

/-- The declared length of a message is that of its plan unless some field has no elements: such a
field has no bytes, but one step. -/
theorem planLength_eq_or_lt (m : Message) :
    (∀ f ∈ m.fields, f.arity ≠ 0) ∧ planLength m.fields = m.payloadLength ∨
      (∃ f ∈ m.fields, f.arity = 0) ∧ m.payloadLength < planLength m.fields := by
  rw [Message.payloadLength]
  induction m.fields with
  | nil => exact .inl ⟨by simp, rfl⟩
  | cons f rest ih =>
    have hplan : planLength (f :: rest) = f.type.width * stepCount f + planLength rest := rfl
    have hpos := width_pos f.type
    rw [hplan, List.foldr_cons, Field.footprint]
    -- the plan never falls short, and a field without elements puts it ahead for good
    by_cases hzero : f.arity = 0
    · refine .inr ⟨⟨f, List.mem_cons_self, hzero⟩, ?_⟩
      rw [stepCount_of_eq_zero hzero, hzero]
      rcases ih with ⟨-, h⟩ | ⟨-, h⟩ <;> simp only [UInt8.toNat_zero] <;> omega
    · rw [stepCount_of_ne_zero hzero]
      rcases ih with ⟨hall, h⟩ | ⟨⟨g, hg, hg0⟩, h⟩
      · exact .inl ⟨List.forall_mem_cons.mpr ⟨hzero, hall⟩, by rw [h]⟩
      · exact .inr ⟨⟨g, List.mem_cons_of_mem f hg, hg0⟩, by omega⟩

/-- Without empty arrays, the plan is as long as the payload is declared to be. -/
theorem planLength_eq {m : Message} (hne : ∀ f ∈ m.fields, f.arity ≠ 0) :
    planLength m.fields = m.payloadLength := by
  rcases planLength_eq_or_lt m with ⟨-, heq⟩ | ⟨⟨f, hf, hzero⟩, -⟩
  · exact heq
  · exact absurd hzero (hne f hf)

/-! ## Packing -/

/-- The elements of a value; a scalar is its own and only one. -/
def Value.elements : Value → List Value
  | .scalar x => [.scalar x]
  | .list vs => vs

/-- The elements that values hold for a field, none when it is missing. -/
def elementsOf (values : Values) (name : String) : List Value :=
  ((values.lookup name).map Value.elements).getD []

/-- Elements are counted from zero, a scalar being the only one of its own. -/
theorem Value.element?_eq (v : Value) (i : Nat) : v.element? i = v.elements[i]? := by
  cases v with
  | scalar x => cases i <;> simp [Value.element?, Value.elements]
  | list vs => rfl

/-- What is counted before packing are the elements that the values hold. -/
theorem held_eq (values : Values) (name : String) :
    held values name = (elementsOf values name).length := by
  rw [held, elementsOf]
  rcases values.lookup name with _ | _ | _ <;> rfl

/-- A step finds the element of its field that has its place. -/
theorem Step.element?_eq (s : Step) (values : Values) :
    s.element? values = (elementsOf values s.field)[s.index.getD 1 - 1]? := by
  rw [Step.element?, elementsOf]
  cases values.lookup s.field with
  | none => rfl
  | some v => exact Value.element?_eq v _

/-- The part of a list that begins at a place begins with what stands there. -/
theorem take_drop_eq_cons_iff {α : Type} {as bs : List α} {b : α} {i n : Nat} :
    (as.drop i).take (n + 1) = b :: bs ↔ as[i]? = some b ∧ (as.drop (i + 1)).take n = bs := by
  by_cases hi : i < as.length
  · rw [List.drop_eq_getElem_cons hi, List.take_succ_cons, List.cons.injEq,
      List.getElem?_eq_getElem hi, Option.some.injEq]
  · simp [List.drop_eq_nil_of_le (Nat.le_of_not_lt hi), Nat.le_of_not_lt hi]

/-- The steps from the element `i` on write the elements held from there on. -/
theorem forall₂_writes_elementSteps_iff (values : Values) (f : Field) (i offset count : Nat)
    (xs : List Scalar) :
    List.Forall₂ (Writes values) (elementSteps f (i + 1) offset count) xs ↔
      (xs.length = count ∧ ∀ x ∈ xs, x.wire = f.type.wire) ∧
        ((elementsOf values f.name).drop i).take count = xs.map Value.scalar := by
  induction count generalizing i offset xs with
  | zero => cases xs <;> simp [elementSteps]
  | succ count ih =>
    cases xs with
    | nil => simp [elementSteps]
    | cons x xs =>
      have hwrites : Writes values ⟨f.name, f.type.wire, some (i + 1), offset⟩ x ↔
          (elementsOf values f.name)[i]? = some (.scalar x) ∧ x.wire = f.type.wire := by
        constructor
        · rintro ⟨helement, hwire⟩
          exact ⟨by rwa [Step.element?_eq] at helement, hwire⟩
        · rintro ⟨helement, hwire⟩
          exact ⟨by rwa [Step.element?_eq], hwire⟩
      rw [elementSteps, List.forall₂_cons, hwrites, ih, List.map_cons, take_drop_eq_cons_iff,
        List.length_cons, List.forall_mem_cons, Nat.add_right_cancel_iff]
      tauto

/-- The steps of a field write the first elements held for it. -/
theorem forall₂_writes_fieldSteps_iff (values : Values) (f : Field) (offset : Nat)
    (xs : List Scalar) :
    List.Forall₂ (Writes values) (fieldSteps f offset) xs ↔
      Fits f xs ∧ (elementsOf values f.name).take (stepCount f) = xs.map Value.scalar := by
  have h := forall₂_writes_elementSteps_iff values f 0 offset (stepCount f) xs
  rw [List.drop_zero, ← fits_iff] at h
  rw [← h, fieldSteps, stepCount]
  split
  · rfl
  · -- a scalar has no index, but its step finds what the first step of an array finds
    have hsame : ∀ x, Writes values ⟨f.name, f.type.wire, none, offset⟩ x ↔
        Writes values ⟨f.name, f.type.wire, some 1, offset⟩ x :=
      fun x => ⟨fun h => ⟨h.1, h.2⟩, fun h => ⟨h.1, h.2⟩⟩
    cases xs <;> simp [elementSteps, hsame]

/-- The values hold just these numbers for the field. -/
structure Holds (values : Values) (f : Field) (xs : List Scalar) : Prop where
  fits : Fits f xs
  elements_eq : elementsOf values f.name = xs.map Value.scalar

/-- The check before packing and the steps of a field agree on what the field holds. A field without
elements passes the check, but its one step finds nothing. -/
theorem holds_iff {values : Values} {f : Field} {xs : List Scalar} :
    ((elementsOf values f.name).length = f.arity.toNat ∧
        Fits f xs ∧ (elementsOf values f.name).take (stepCount f) = xs.map Value.scalar) ↔
      f.arity ≠ 0 ∧ Holds values f xs := by
  constructor
  · rintro ⟨hlength, hfits, htake⟩
    have hcount := congrArg List.length htake
    rw [List.length_take, List.length_map, hfits.length_eq, hlength] at hcount
    -- the check finds nothing missing in a field without elements, but its step does
    by_cases hzero : f.arity = 0
    · rw [stepCount_of_eq_zero hzero, hzero, UInt8.toNat_zero] at hcount
      omega
    · rw [stepCount_of_ne_zero hzero, ← hlength, List.take_length] at htake
      exact ⟨hzero, hfits, htake⟩
  · rintro ⟨hne, hfits, helements⟩
    have hlength : (elementsOf values f.name).length = stepCount f := by
      rw [helements, List.length_map, hfits.length_eq]
    refine ⟨by rw [hlength, stepCount_of_ne_zero hne], hfits, ?_⟩
    rw [← hlength, List.take_length, helements]

/-- The check before packing passes if every field holds its declared number of elements. -/
theorem mismatch?_eq_none_iff {m : Message} {values : Values} :
    mismatch? m values = none ↔
      ∀ f ∈ m.fields, (elementsOf values f.name).length = f.arity.toNat := by
  simp [mismatch?, lengths, held_eq]

/-- Packing is writing the steps of the plan, once the check has passed. -/
theorem pack_eq_ok_iff_packSteps {order : ByteOrder} {m : Message} {values : Values}
    {bytes : List UInt8} :
    pack order m values = .ok bytes ↔
      mismatch? m values = none ∧ packSteps order values (plan m) = .ok bytes := by
  rw [pack]
  cases mismatch? m values <;> simp

/-- Packing writes the contents that the values hold. It succeeds exactly if they hold contents for
every field and no field is without elements. -/
theorem pack_eq_ok_iff {order : ByteOrder} {m : Message} {values : Values} {bytes : List UInt8} :
    pack order m values = .ok bytes ↔
      (∀ f ∈ m.fields, f.arity ≠ 0) ∧
        ∃ xss, List.Forall₂ (Holds values) m.fields xss ∧ bytes = encodeAll order xss.flatten := by
  have hsteps := forall₂_stepsFrom_iff (forall₂_writes_fieldSteps_iff values) 0 m.fields
  rw [pack_eq_ok_iff_packSteps, mismatch?_eq_none_iff, packSteps_eq_ok_iff]
  constructor
  · rintro ⟨hlengths, xs, hxs, rfl⟩
    obtain ⟨xss, hxss, rfl⟩ := (hsteps xs).mp hxs
    -- field by field, what the check and the steps say together is `holds_iff`
    have hholds := ((List.forall₂_and_left _ _).mpr ⟨hlengths, hxss⟩).imp fun _ _ => holds_iff.mp
    obtain ⟨hne, hxss⟩ := (List.forall₂_and_left _ _).mp hholds
    exact ⟨hne, xss, hxss, rfl⟩
  · rintro ⟨hne, xss, hxss, rfl⟩
    have hchecked := ((List.forall₂_and_left _ _).mpr ⟨hne, hxss⟩).imp fun _ _ => holds_iff.mpr
    obtain ⟨hlengths, hxss⟩ := (List.forall₂_and_left _ _).mp hchecked
    exact ⟨hlengths, _, (hsteps _).mpr ⟨xss, hxss, rfl⟩, rfl⟩

/-! ## Unpacking -/

/-- The value of a field with the given elements: a single one as it is, several as a list. -/
def valueOf (f : Field) (vs : List Value) : Value :=
  if f.isArray then .list vs else vs.headD (.list [])

/-- The values of fields with the given contents. -/
def valuesOf (fields : List Field) (xss : List (List Scalar)) : Values :=
  (fields.zip xss).map fun p => (p.1.name, valueOf p.1 (p.2.map Value.scalar))

/-- Sorting the numbers of a payload into their fields gives the values of its contents. -/
theorem gather_flatten {fields : List Field} {xss : List (List Scalar)}
    (h : List.Forall₂ Fits fields xss) : gather fields xss.flatten = valuesOf fields xss := by
  induction h with
  | nil => rfl
  | @cons f xs fields xss hfits _ ih =>
    rw [List.flatten_cons, gather, ← hfits.length_eq, List.take_left, List.drop_left, ih]
    rfl

/-- Unpacking reads the contents whose bytes the payload consists of. It succeeds for payloads of
the declared length if no field is without elements, and for no others. -/
theorem unpack_eq_ok_iff {order : ByteOrder} {m : Message} {bytes : List UInt8} {values : Values} :
    unpack order m bytes = .ok values ↔
      (∀ f ∈ m.fields, f.arity ≠ 0) ∧
        ∃ xss, List.Forall₂ Fits m.fields xss ∧ bytes = encodeAll order xss.flatten ∧
          values = valuesOf m.fields xss := by
  have hsteps := forall₂_stepsFrom_iff forall₂_wire_fieldSteps_iff 0 m.fields
  rw [unpack]
  constructor
  · intro h
    split at h
    · exact absurd h (by simp)
    · next hlength =>
      obtain ⟨xs, hread, rfl⟩ := map_eq_ok_iff.mp h
      obtain ⟨hxs, behind, rfl⟩ := readSteps_eq_ok_iff.mp hread
      obtain ⟨xss, hxss, rfl⟩ := (hsteps xs).mp hxs
      rw [ne_eq, not_not, List.length_append, length_encodeAll_flatten order hxss] at hlength
      rcases planLength_eq_or_lt m with ⟨hne, heq⟩ | ⟨-, hlt⟩
      · -- the plan has just the declared length, so nothing is left behind it
        have hnil : behind = [] := List.eq_nil_of_length_eq_zero (by omega)
        exact ⟨hne, xss, hxss, by rw [hnil, List.append_nil], gather_flatten hxss⟩
      · omega
  · rintro ⟨hne, xss, hxss, rfl, rfl⟩
    have hlength : (encodeAll order xss.flatten).length = m.payloadLength := by
      rw [length_encodeAll_flatten order hxss, planLength_eq hne]
    have hread : readSteps order (stepsFrom 0 m.fields) (encodeAll order xss.flatten) =
        .ok xss.flatten :=
      readSteps_eq_ok_iff.mpr ⟨(hsteps _).mpr ⟨xss, hxss, rfl⟩, List.prefix_refl _⟩
    rw [if_neg (not_not.mpr hlength), plan, hread, Except.map, gather_flatten hxss]

end Dialect.Payload

import Dialect.Proofs.Payload.RoundTrip

/-!
# Values that cannot be packed

Values are refused for the first field that does not hold its declared number of elements
(`shortfall?`), and if there is none for the first element that is not of the type of its field
(`misfit?`). All others are packed (`pack_eq_of_faults`): when the numbers of elements are right,
each step finds the element it is to write (`forall₂_finds_stepsFrom`).
-/

namespace Dialect.Payload

open Dialect.Schema (Field Message)

/-- The first field, in wire order, that does not hold its declared number of elements. -/
def shortfall? (m : Message) (values : Values) : Option Field :=
  m.fields.find? fun f => held values f.name != f.arity.toNat

/-- All elements that values hold for the fields of a message, each with its field, in wire
order. -/
def elementsInOrder (m : Message) (values : Values) : List (Field × Value) :=
  m.fields.flatMap fun f => (elementsOf values f.name).map (f, ·)

/-- The first element, in wire order, that is not of the type of its field, with this field. -/
def misfit? (m : Message) (values : Values) : Option (Field × Value) :=
  (elementsInOrder m values).find? fun p => !p.2.isA p.1.type

variable {order : ByteOrder} {m : Message} {values : Values} {s : Step} {p : Field × Value}

/-- The check before packing finds the field with the wrong number of elements. -/
theorem mismatch?_eq_shortfall? :
    mismatch? m values = (shortfall? m values).map Field.name := by
  rw [mismatch?, shortfall?, lengths, List.find?_map, Option.map_map]
  rfl

/-! ## Steps that find their elements -/

/-- The step writes the element of the field, in the form of its type. -/
structure Finds (values : Values) (s : Step) (p : Field × Value) : Prop where
  field_eq : s.field = p.1.name
  wire_eq : s.wire = p.1.type.wire
  element_eq : s.element? values = some p.2

/-- A value is of a type if it is a number in the form of the type. -/
theorem isA_iff {type : Schema.Primitive} {v : Value} :
    v.isA type ↔ ∃ x, v = .scalar x ∧ x.wire = type.wire := by
  cases v with
  | scalar x => simp [Value.isA]
  | list vs => simp [Value.isA]

/-- A step writes an element that is of the type of the field. -/
theorem Step.exists_pack_of_isA (h : Finds values s p) (hp : p.2.isA p.1.type) :
    ∃ bytes, s.pack order values = .ok bytes := by
  obtain ⟨x, hx, hwire⟩ := isA_iff.mp hp
  refine ⟨x.encode order, Step.pack_eq_ok_iff.mpr ⟨x, ⟨?_, ?_⟩, rfl⟩⟩
  · rw [h.element_eq, hx]
  · rw [hwire, h.wire_eq]

/-- An element that is not of the type of the field is refused, be it a number or a list. -/
theorem Step.pack_of_not_isA (h : Finds values s p) (hp : ¬ p.2.isA p.1.type) :
    s.pack order values = .error (.typeMismatch p.1.name p.1.type.wire) := by
  rw [Step.pack, h.element_eq, h.field_eq, h.wire_eq]
  cases hv : p.2 with
  | scalar x =>
    have hwire : x.wire ≠ p.1.type.wire := fun heq => hp (isA_iff.mpr ⟨x, hv, heq⟩)
    exact if_neg hwire
  | list vs => rfl

/-- Steps that find their elements are refused for the first that is not of the type of its field,
and for nothing else. -/
theorem packSteps_of_finds (order : ByteOrder) {steps : List Step} {ps : List (Field × Value)}
    (h : List.Forall₂ (Finds values) steps ps) :
    (∀ p, ps.find? (fun p => !p.2.isA p.1.type) = some p →
      packSteps order values steps = .error (.typeMismatch p.1.name p.1.type.wire)) ∧
    (ps.find? (fun p => !p.2.isA p.1.type) = none →
      ∃ bytes, packSteps order values steps = .ok bytes) := by
  induction h with
  | nil => exact ⟨nofun, fun _ => ⟨[], rfl⟩⟩
  | @cons s p steps ps hfinds _ ih =>
    rw [packSteps]
    -- a step whose element has the right type is packed, and leaves it to those behind it
    by_cases hp : p.2.isA p.1.type
    · obtain ⟨first, hfirst⟩ : ∃ bytes, s.pack order values = .ok bytes :=
        Step.exists_pack_of_isA hfinds hp
      rw [List.find?_cons_of_neg (by simp [hp]), hfirst]
      refine ⟨fun q hq => ?_, fun hnone => ?_⟩
      · rw [ih.1 q hq]
        rfl
      · obtain ⟨more, hmore⟩ := ih.2 hnone
        rw [hmore]
        exact ⟨_, rfl⟩
    · rw [List.find?_cons_of_pos (by simp [hp]), Step.pack_of_not_isA hfinds hp]
      refine ⟨fun q hq => ?_, fun hnone => absurd hnone (by simp)⟩
      rw [← Option.some.inj hq]
      rfl

/-- The steps of an array find its elements one by one. -/
theorem forall₂_finds_elementSteps (f : Field) (i offset : Nat) {vs : List Value}
    (h : (elementsOf values f.name).drop i = vs) :
    List.Forall₂ (Finds values) (elementSteps f (i + 1) offset vs.length) (vs.map (f, ·)) := by
  induction vs generalizing i offset with
  | nil => exact .nil
  | cons v rest ih =>
    have hv : (elementsOf values f.name)[i]? = some v := by
      rw [← List.head?_drop, h, List.head?_cons]
    have hrest : (elementsOf values f.name).drop (i + 1) = rest := by
      rw [← List.tail_drop, h, List.tail_cons]
    rw [List.length_cons, elementSteps, List.map_cons]
    exact .cons ⟨rfl, rfl, by rw [Step.element?_eq]; exact hv⟩ (ih (i + 1) _ hrest)

/-- The steps of a field find just the elements held for it, if there are as many as declared. -/
theorem forall₂_finds_fieldSteps {f : Field} (hne : f.arity ≠ 0)
    (h : held values f.name = f.arity.toNat) (offset : Nat) :
    List.Forall₂ (Finds values) (fieldSteps f offset) ((elementsOf values f.name).map (f, ·)) := by
  rw [held_eq] at h
  have hsteps : List.Forall₂ (Finds values) (elementSteps f 1 offset _) _ :=
    forall₂_finds_elementSteps f 0 offset List.drop_zero
  rw [h, ← stepCount_of_ne_zero hne, stepCount] at hsteps
  rw [fieldSteps]
  split
  · next harray => rwa [if_pos harray] at hsteps
  · next hscalar =>
    -- a scalar has no index, but its step finds what the first step of an array finds
    rw [if_neg hscalar] at hsteps
    obtain ⟨p, ps, hfirst, hnil, hps⟩ := List.forall₂_cons_left_iff.mp hsteps
    rw [hps]
    exact .cons ⟨hfirst.field_eq, hfirst.wire_eq, hfirst.element_eq⟩ hnil

/-- The steps of fields find the elements held for them, one for one. -/
theorem forall₂_finds_stepsFrom {fields : List Field}
    (h : ∀ f ∈ fields, f.arity ≠ 0 ∧ held values f.name = f.arity.toNat) (offset : Nat) :
    List.Forall₂ (Finds values) (stepsFrom offset fields)
      (fields.flatMap fun f => (elementsOf values f.name).map (f, ·)) := by
  induction fields generalizing offset with
  | nil => exact .nil
  | cons f rest ih =>
    obtain ⟨⟨hne, hheld⟩, hrest⟩ := List.forall_mem_cons.mp h
    rw [stepsFrom, List.flatMap_cons]
    exact List.rel_append (forall₂_finds_fieldSteps hne hheld offset) (ih hrest _)

/-! ## What packing refuses -/

/-- Packing refuses the first field with a wrong number of elements, before a step is taken. -/
theorem pack_of_shortfall {f : Field} (h : shortfall? m values = some f) :
    pack order m values = .error (.packing f.name) := by
  rw [pack, mismatch?_eq_shortfall?, h]
  rfl

/-- If no field falls short, packing is left to the steps. -/
theorem pack_of_no_shortfall (h : shortfall? m values = none) :
    pack order m values = packSteps order values (plan m) := by
  rw [pack, mismatch?_eq_shortfall?, h]
  rfl

/-- Without such a field, the steps find all elements that the values hold for the message. -/
theorem forall₂_finds_plan (hne : ∀ f ∈ m.fields, f.arity ≠ 0) (h : shortfall? m values = none) :
    List.Forall₂ (Finds values) (plan m) (elementsInOrder m values) := by
  refine forall₂_finds_stepsFrom (fun f hf => ⟨hne f hf, ?_⟩) 0
  have hheld := List.find?_eq_none.mp h f hf
  rwa [bne_iff_ne, not_not] at hheld

/-- What the steps of the message end in then: a mismatch of types, for the first element that is
not of the type of its field, or bytes. -/
theorem packSteps_plan_cases (order : ByteOrder) (hne : ∀ f ∈ m.fields, f.arity ≠ 0)
    (h : shortfall? m values = none) :
    (∃ p, misfit? m values = some p ∧ packSteps order values (plan m) =
      .error (.typeMismatch p.1.name p.1.type.wire)) ∨
    misfit? m values = none ∧ ∃ bytes, packSteps order values (plan m) = .ok bytes := by
  obtain ⟨hrefused, hpacked⟩ := packSteps_of_finds order (forall₂_finds_plan hne h)
  cases hp : misfit? m values with
  | some p => exact .inl ⟨p, rfl, hrefused p hp⟩
  | none => exact .inr ⟨rfl, hpacked hp⟩

/-- **Which values are packed.** Let a message be laid out of fields that are not without elements.
Values with a field that does not hold its declared number of elements are refused for the first
such field, and the check before packing finds the same one. Other values are refused for the first
element that is not of the type of its field, if there is one, and are packed if there is none. The
steps themselves miss no element and run out of no bytes. -/
theorem pack_eq_of_faults {id : UInt8} {name : String} {description : Option String}
    {declared : List Field} {m : Message}
    (hm : Message.layOut id name description declared = .ok m)
    (hne : ∀ f ∈ declared, f.arity ≠ 0) (order : ByteOrder) (values : Values) :
    mismatch? m values = (shortfall? m values).map Field.name ∧
    (∀ f, shortfall? m values = some f → pack order m values = .error (.packing f.name)) ∧
    (shortfall? m values = none →
      (∀ p, misfit? m values = some p →
        pack order m values = .error (.typeMismatch p.1.name p.1.type.wire)) ∧
      (misfit? m values = none → ∃ bytes, pack order m values = .ok bytes) ∧
      ∀ field, packSteps order values (plan m) ≠ .error (.packing field)) ∧
    pack order m values ≠ .error .endOfPayload := by
  have hfields := fun f hf => hne f ((Message.mem_fields_of_layOut hm).mp hf)
  refine ⟨mismatch?_eq_shortfall?, fun f => pack_of_shortfall, fun h => ?_, ?_⟩
  · rw [pack_of_no_shortfall h]
    rcases packSteps_plan_cases order hfields h with ⟨p, hp, hsteps⟩ | ⟨hp, bytes, hsteps⟩
    · refine ⟨fun q hq => ?_, fun hnone => absurd (hp.symm.trans hnone) (by simp), by simp [hsteps]⟩
      rw [hsteps, Option.some.inj (hp.symm.trans hq)]
    · exact ⟨fun q hq => absurd (hp.symm.trans hq) (by simp), fun _ => ⟨bytes, hsteps⟩,
        by simp [hsteps]⟩
  · cases h : shortfall? m values with
    | some f => simp [pack_of_shortfall h]
    | none =>
      rw [pack_of_no_shortfall h]
      rcases packSteps_plan_cases order hfields h with ⟨p, -, hsteps⟩ | ⟨-, bytes, hsteps⟩
      · simp [hsteps]
      · simp [hsteps]

/-- Values for `sampleMessage` with too many elements for each of the two fields. -/
def crowdedValues : Values :=
  [("flag", .list [.scalar (.i8 1), .scalar (.u8 2)]),
    ("pair", .list [.list [], .list [], .list []])]

/-- Values for `sampleMessage` with a list for the second element of the pair. The flag is wrong,
too, but comes behind the pair on the wire. -/
def nestedValues : Values :=
  [("flag", .scalar (.i8 1)), ("pair", .list [.scalar (.i16 1), .list [.scalar (.i16 2)]])]

/-- A field with too many elements, and one with a list among them. -/
theorem pack_eq_of_faults_sample :
    Message.layOut 7 "SAMPLE" none sampleFields = .ok sampleMessage ∧
      (∀ f ∈ sampleFields, f.arity ≠ 0) ∧
      mismatch? sampleMessage crowdedValues = some "pair" ∧
      pack .big sampleMessage crowdedValues = .error (.packing "pair") ∧
      pack .big sampleMessage nestedValues = .error (.typeMismatch "pair" .int16) ∧
      (∃ bytes, pack .big sampleMessage sampleValues = .ok bytes) ∧
      ∀ values, pack .little sampleMessage values ≠ .error .endOfPayload := by
  have hm : Message.layOut 7 "SAMPLE" none sampleFields = .ok sampleMessage := by rfl
  have hne : ∀ f ∈ sampleFields, f.arity ≠ 0 := by decide
  obtain ⟨hagree, hcrowded, -, -⟩ := pack_eq_of_faults hm hne .big crowdedValues
  obtain ⟨-, -, hnested, -⟩ := pack_eq_of_faults hm hne .big nestedValues
  obtain ⟨-, -, hgood, -⟩ := pack_eq_of_faults hm hne .big sampleValues
  refine ⟨hm, hne, hagree.trans (by rfl), hcrowded (.declare "Pair" (.plain .int16) 2 "") (by rfl),
    (hnested (by rfl)).1 (.declare "Pair" (.plain .int16) 2 "", .list [.scalar (.i16 2)]) (by rfl),
    (hgood (by rfl)).2.1 (by rfl), fun values => ?_⟩
  exact (pack_eq_of_faults hm hne .little values).2.2.2

end Dialect.Payload

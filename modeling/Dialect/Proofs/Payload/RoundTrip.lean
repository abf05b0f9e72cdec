import Dialect.Proofs.Payload.Contents
import Dialect.Proofs.Schema.Definition
import Mathlib.Data.Set.Function

/-!
# Packing and unpacking undo each other

What was packed is read back, each field in one settled form: a single element as a scalar, several
as a list (`decodedForm`). And every payload of the right length is the packing of the values read
from it, so no two payloads of a message mean the same and none is wasted.
-/

namespace Dialect.Payload

open Dialect.Schema (Field Message)

/-! ## Looking up fields -/

/-- A name that stands once in a list is found with what stands beside it. -/
theorem lookup_of_mem {values : Values} (hnodup : (values.map Prod.fst).Nodup) {name : String}
    {v : Value} (hmem : (name, v) ∈ values) : values.lookup name = some v := by
  induction values with
  | nil => exact absurd hmem (by simp)
  | cons p rest ih =>
    rw [List.map_cons, List.nodup_cons] at hnodup
    rcases List.mem_cons.mp hmem with rfl | hmem
    · exact List.lookup_cons_self
    · have hne : name ≠ p.1 := by
        rintro rfl
        exact hnodup.1 (List.mem_map.mpr ⟨_, hmem, rfl⟩)
      rw [List.lookup_cons, beq_false_of_ne hne]
      exact ih hnodup.2 hmem

/-- The names of values with given contents are those of the fields. -/
theorem map_fst_valuesOf {fields : List Field} {xss : List (List Scalar)}
    (hlength : fields.length = xss.length) :
    (valuesOf fields xss).map Prod.fst = fields.map Field.name := by
  rw [valuesOf, List.map_map]
  calc (fields.zip xss).map (Prod.fst ∘ fun p => (p.1.name, valueOf p.1 (p.2.map Value.scalar)))
      = ((fields.zip xss).map Prod.fst).map Field.name := by rw [List.map_map]; rfl
    _ = fields.map Field.name := by rw [List.map_fst_zip hlength.le]

/-- The value made of the numbers of a field has just these elements. -/
theorem elements_valueOf {f : Field} {xs : List Scalar} (hfits : Fits f xs) :
    (valueOf f (xs.map Value.scalar)).elements = xs.map Value.scalar := by
  rw [valueOf]
  split
  · rfl
  · next hscalar =>
    have hone : xs.length = 1 := by rw [hfits.length_eq, stepCount, if_neg hscalar]
    obtain ⟨x, rfl⟩ := List.length_eq_one_iff.mp hone
    rfl

/-- Values made of contents hold these contents, if the names of the fields are distinct. -/
theorem holds_valuesOf {fields : List Field} {xss : List (List Scalar)}
    (hnodup : (fields.map Field.name).Nodup) (h : List.Forall₂ Fits fields xss) :
    List.Forall₂ (Holds (valuesOf fields xss)) fields xss := by
  have hnames := map_fst_valuesOf h.length_eq
  refine List.forall₂_iff_zip.mpr ⟨h.length_eq, ?_⟩
  intro f xs hmem
  have hfits : Fits f xs := List.forall₂_zip h hmem
  -- no other field has this name, so what is found under it is the entry of `f`
  have hlookup : (valuesOf fields xss).lookup f.name = some (valueOf f (xs.map Value.scalar)) :=
    lookup_of_mem (hnames ▸ hnodup) (List.mem_map_of_mem hmem)
  refine ⟨hfits, ?_⟩
  rw [elementsOf, hlookup, Option.map_some, Option.getD_some, elements_valueOf hfits]

/-! ## Reading what was packed -/

/-- The values of a message in the form in which they are read: only its fields, in wire order, a
single element as a scalar and several as a list. -/
def decodedForm (m : Message) (values : Values) : Values :=
  m.fields.map fun f => (f.name, valueOf f (elementsOf values f.name))

/-- Contents that values hold, given back as values, are the decoded form of these values. -/
theorem valuesOf_eq_decodedForm {m : Message} {values : Values} {xss : List (List Scalar)}
    (h : List.Forall₂ (Holds values) m.fields xss) :
    valuesOf m.fields xss = decodedForm m values := by
  rw [decodedForm]
  generalize m.fields = fields at h ⊢
  induction h with
  | nil => rfl
  | @cons f xs fields xss hholds _ ih =>
    rw [List.map_cons, ← ih, hholds.elements_eq]
    rfl

/-- A payload that was packed is read, and the decoded form of its values is what comes out. -/
theorem unpack_of_pack {order : ByteOrder} {m : Message} {values : Values} {bytes : List UInt8}
    (h : pack order m values = .ok bytes) :
    unpack order m bytes = .ok (decodedForm m values) := by
  obtain ⟨hne, xss, hxss, rfl⟩ := pack_eq_ok_iff.mp h
  have hfits := hxss.imp fun _ _ hholds => hholds.fits
  exact unpack_eq_ok_iff.mpr ⟨hne, xss, hfits, rfl, (valuesOf_eq_decodedForm hxss).symm⟩

/-- Only payloads of the declared length are read. -/
theorem length_of_unpack {order : ByteOrder} {m : Message} {bytes : List UInt8} {values : Values}
    (h : unpack order m bytes = .ok values) : bytes.length = m.payloadLength := by
  rw [unpack] at h
  split at h
  · exact absurd h (by simp)
  · next hlength => exact not_not.mp hlength

/-- Values that were packed hold, for every field, its declared number of elements, and at least
one. -/
theorem length_elementsOf_of_pack {order : ByteOrder} {m : Message} {values : Values}
    {bytes : List UInt8} (h : pack order m values = .ok bytes) {f : Field} (hf : f ∈ m.fields) :
    f.arity ≠ 0 ∧ (elementsOf values f.name).length = f.arity.toNat := by
  refine ⟨(pack_eq_ok_iff.mp h).1 f hf, ?_⟩
  rw [pack] at h
  split at h
  · exact absurd h (by simp)
  · next hnone => exact mismatch?_eq_none_iff.mp hnone f hf

/-- The form in which a field is read, by the name of the field. -/
theorem lookup_decodedForm {m : Message} (hnodup : (m.fields.map Field.name).Nodup)
    (values : Values) {f : Field} (hf : f ∈ m.fields) :
    (decodedForm m values).lookup f.name = some (valueOf f (elementsOf values f.name)) := by
  refine lookup_of_mem ?_ (List.mem_map_of_mem hf)
  rwa [decodedForm, List.map_map]

/-- Values that hold elements under a name have an entry there, with these elements. -/
theorem exists_lookup_of_elementsOf {values : Values} {name : String}
    (hne : elementsOf values name ≠ []) :
    ∃ v, values.lookup name = some v ∧ ∀ i, v.element? i = (elementsOf values name)[i]? := by
  rw [elementsOf] at hne ⊢
  cases h : values.lookup name with
  | none => exact absurd (by rw [h]; rfl) hne
  | some v => exact ⟨v, rfl, fun i => v.element?_eq i⟩

/-- **Round trip.** A packed payload has the declared length and is read back: exactly the fields of
the message come out, a field of one element as this element, be it given alone or in a list, and a
field of several as the list of them. -/
theorem unpack_pack {id : UInt8} {name : String} {description : Option String}
    {declared : List Field} {m : Message}
    (hm : Message.layOut id name description declared = .ok m) (order : ByteOrder)
    (values : Values) {bytes : List UInt8} (h : pack order m values = .ok bytes) :
    bytes.length = m.payloadLength ∧
      ∃ read, unpack order m bytes = .ok read ∧
        read.map Prod.fst = m.fields.map Field.name ∧
        ∀ f ∈ m.fields, f.arity ≠ 0 ∧ ∃ v, values.lookup f.name = some v ∧
          (f.arity = 1 → ∃ x, v.element? 0 = some x ∧ read.lookup f.name = some x) ∧
          (1 < f.arity → ∃ xs, xs.length = f.arity.toNat ∧
            (∀ i < f.arity.toNat, xs[i]? = v.element? i) ∧
            read.lookup f.name = some (.list xs)) := by
  have hread := unpack_of_pack h
  refine ⟨length_of_unpack hread, decodedForm m values, hread, by simp [decodedForm], ?_⟩
  intro f hf
  obtain ⟨hpos, hlength⟩ := length_elementsOf_of_pack h hf
  -- what comes out under the name is the form that decoding gives the elements that went in
  have hlookup := lookup_decodedForm (Message.nodup_names_of_layOut hm) values hf
  have hne : elementsOf values f.name ≠ [] := by
    intro hnil
    rw [hnil, List.length_nil] at hlength
    exact hpos (UInt8.toNat_inj.mp hlength.symm)
  obtain ⟨v, hv, helement⟩ := exists_lookup_of_elementsOf hne
  refine ⟨hpos, v, hv, ?_, ?_⟩
  · intro hone
    rw [hone] at hlength
    obtain ⟨x, hx⟩ := List.length_eq_one_iff.mp hlength
    refine ⟨x, by rw [helement, hx]; rfl, ?_⟩
    rw [hlookup, hx, valueOf, Field.isArray, hone]
    rfl
  · intro harray
    refine ⟨elementsOf values f.name, hlength, fun i _ => (helement i).symm, ?_⟩
    rw [hlookup, valueOf, Field.isArray, if_pos (decide_eq_true harray)]

/-- A marker of one element and a pair of numbers, which goes in front of it on the wire. -/
def sampleFields : List Field :=
  [.declare "Flag" .versionMarker 1 "", .declare "Pair" (.plain .int16) 2 ""]

/-- The message with these fields. -/
def sampleMessage : Message := ⟨7, "SAMPLE", none, Schema.wireOrder sampleFields⟩

/-- Values for `sampleMessage`: the marker in a list of its own, and an entry for no field. -/
def sampleValues : Values :=
  [("pair", .list [.scalar (.i16 (-2)), .scalar (.i16 300)]), ("other", .list []),
    ("flag", .list [.scalar (.u8 9)])]

/-- A pair, and a single number that is given in a list of its own. -/
theorem unpack_pack_sample :
    Message.layOut 7 "SAMPLE" none sampleFields = .ok sampleMessage ∧
      pack .big sampleMessage sampleValues = .ok [0xFF, 0xFE, 1, 44, 9] ∧
      [0xFF, 0xFE, 1, 44, 9].length = sampleMessage.payloadLength ∧
      ∃ read, unpack .big sampleMessage [0xFF, 0xFE, 1, 44, 9] = .ok read ∧
        read.map Prod.fst = sampleMessage.fields.map Field.name ∧
        ∀ f ∈ sampleMessage.fields, f.arity ≠ 0 ∧ ∃ v, sampleValues.lookup f.name = some v ∧
          (f.arity = 1 → ∃ x, v.element? 0 = some x ∧ read.lookup f.name = some x) ∧
          (1 < f.arity → ∃ xs, xs.length = f.arity.toNat ∧
            (∀ i < f.arity.toNat, xs[i]? = v.element? i) ∧
            read.lookup f.name = some (.list xs)) := by
  have hm : Message.layOut 7 "SAMPLE" none sampleFields = .ok sampleMessage := by rfl
  have hpack : pack .big sampleMessage sampleValues = .ok [0xFF, 0xFE, 1, 44, 9] := by rfl
  exact ⟨hm, hpack, unpack_pack hm .big sampleValues hpack⟩

/-! ## Packing what was read -/

/-- The steps of an array read the width of its type, as many times as there are elements. -/
theorem sum_width_elementSteps (f : Field) (index offset count : Nat) :
    ((elementSteps f index offset count).map fun s => s.wire.width).sum = f.type.width * count := by
  induction count generalizing index offset with
  | zero => rfl
  | succ count ih =>
    rw [elementSteps, List.map_cons, List.sum_cons, ih, Nat.mul_succ, Nat.add_comm]
    rfl

/-- The steps of a field read the width of its type, once for each. -/
theorem sum_width_fieldSteps (f : Field) (offset : Nat) :
    ((fieldSteps f offset).map fun s => s.wire.width).sum = f.type.width * stepCount f := by
  rw [fieldSteps, stepCount]
  split
  · exact sum_width_elementSteps f 1 offset f.arity.toNat
  · simp [Schema.Primitive.width]

/-- The steps of fields read as many bytes as their plan has. -/
theorem sum_width_stepsFrom (offset : Nat) (fields : List Field) :
    ((stepsFrom offset fields).map fun s => s.wire.width).sum = planLength fields := by
  induction fields generalizing offset with
  | nil => rfl
  | cons f rest ih =>
    rw [stepsFrom, List.map_append, List.sum_append, ih, sum_width_fieldSteps]
    rfl

/-- A payload is read exactly if it has the declared length and no field is without elements. -/
theorem exists_unpack_iff {order : ByteOrder} {m : Message} {bytes : List UInt8} :
    (∃ values, unpack order m bytes = .ok values) ↔
      bytes.length = m.payloadLength ∧ ∀ f ∈ m.fields, f.arity ≠ 0 := by
  constructor
  · rintro ⟨values, h⟩
    exact ⟨length_of_unpack h, (unpack_eq_ok_iff.mp h).1⟩
  · rintro ⟨hlength, hne⟩
    have hlong : ((plan m).map fun s => s.wire.width).sum ≤ bytes.length := by
      rw [plan, sum_width_stepsFrom, planLength_eq hne, hlength]
    obtain ⟨xs, hxs⟩ := exists_readSteps order (plan m) bytes hlong
    exact ⟨gather m.fields xs, by rw [unpack, if_neg (not_not.mpr hlength), hxs, Except.map]⟩

/-- The values read from a payload are packed into the same payload. -/
theorem pack_of_unpack {order : ByteOrder} {m : Message} {bytes : List UInt8} {values : Values}
    (hnodup : (m.fields.map Field.name).Nodup) (h : unpack order m bytes = .ok values) :
    pack order m values = .ok bytes := by
  obtain ⟨hne, xss, hfits, rfl, rfl⟩ := unpack_eq_ok_iff.mp h
  exact pack_eq_ok_iff.mpr ⟨hne, xss, holds_valuesOf hnodup hfits, rfl⟩

/-- What values say about each name, without the order in which they are listed. -/
def lookupIn (values : Values) (name : String) : Option Value := values.lookup name

/-- Packing only looks names up. -/
theorem pack_eq_ok_of_lookupIn_eq {order : ByteOrder} {m : Message} {values values' : Values}
    {bytes : List UInt8} (hsame : lookupIn values = lookupIn values')
    (h : pack order m values = .ok bytes) : pack order m values' = .ok bytes := by
  have helements : ∀ name, elementsOf values' name = elementsOf values name := by
    intro name
    have hname : values.lookup name = values'.lookup name := congrFun hsame name
    rw [elementsOf, elementsOf, hname]
  obtain ⟨hne, xss, hxss, rfl⟩ := pack_eq_ok_iff.mp h
  refine pack_eq_ok_iff.mpr ⟨hne, xss, hxss.imp ?_, rfl⟩
  intro f xs hholds
  exact ⟨hholds.fits, by rw [helements, hholds.elements_eq]⟩

/-- **Every payload is meaningful and canonical.** A payload is read exactly if it has the declared
length and no field is without elements, and the values read are packed into the same bytes. So for
a message that a schema defines, reading is one-to-one between the payloads of the declared length
and the values, taken as maps from names, that come out of it. -/
theorem unpack_canonical (order : ByteOrder) :
    (∀ {id : UInt8} {name : String} {description : Option String} {declared : List Field}
        {m : Message}, Message.layOut id name description declared = .ok m → ∀ bytes,
        ((∃ values, unpack order m bytes = .ok values) ↔
          bytes.length = m.payloadLength ∧ ∀ f ∈ m.fields, f.arity ≠ 0) ∧
        ∀ values, unpack order m bytes = .ok values → pack order m values = .ok bytes) ∧
      ∀ (e : Markup.Element) (m : Message), Message.ofElement e = .ok m →
        Set.BijOn (fun bytes => (unpack order m bytes).map lookupIn)
          {bytes | bytes.length = m.payloadLength}
          {read | ∃ bytes values, unpack order m bytes = .ok values ∧
            read = .ok (lookupIn values)} := by
  constructor
  · intro id name description declared m hm bytes
    exact ⟨exists_unpack_iff, fun values h => pack_of_unpack (Message.nodup_names_of_layOut hm) h⟩
  · intro e m he
    have hne := Message.arity_ne_zero_of_ofElement he
    obtain ⟨declared, -, hm⟩ := Message.exists_layOut_of_ofElement he
    have hnodup := Message.nodup_names_of_layOut hm
    have hmap : ∀ {bytes values}, unpack order m bytes = .ok values →
        (unpack order m bytes).map lookupIn = .ok (lookupIn values) :=
      fun h => map_eq_ok_iff.mpr ⟨_, h, rfl⟩
    refine ⟨?_, ?_, ?_⟩
    · intro bytes hlength
      obtain ⟨values, h⟩ := exists_unpack_iff.mpr ⟨hlength, hne⟩
      exact ⟨bytes, values, h, hmap h⟩
    · -- values that look alike are packed alike, and packing gives the payload back
      intro bytes hlength bytes' hlength' hsame
      obtain ⟨values, h⟩ := exists_unpack_iff.mpr ⟨hlength, hne⟩
      obtain ⟨values', h'⟩ := exists_unpack_iff.mpr ⟨hlength', hne⟩
      have hlookup : lookupIn values = lookupIn values' :=
        Except.ok.inj ((hmap h).symm.trans (hsame.trans (hmap h')))
      have hpack := pack_eq_ok_of_lookupIn_eq hlookup (pack_of_unpack hnodup h)
      rw [pack_of_unpack hnodup h'] at hpack
      exact (Except.ok.inj hpack).symm
    · rintro _ ⟨bytes, values, h, rfl⟩
      exact ⟨bytes, length_of_unpack h, hmap h⟩

/-- An element that defines `sampleMessage`. -/
def sampleElement : Markup.Element :=
  ⟨"message", [("name", "SAMPLE"), ("id", " 7 ")],
    [⟨"field", [("type", "uint8_t_mavlink_version"), ("name", "Flag")], [], "", 2⟩,
      ⟨"field", [("type", "int16_t[2]"), ("name", "Pair")], [], "", 3⟩], "", 1⟩

/-- Bytes that nobody packed, and the message that reads them. -/
theorem unpack_canonical_sample :
    Message.layOut 7 "SAMPLE" none sampleFields = .ok sampleMessage ∧
      (∃ values, unpack .big sampleMessage [0x80, 0, 0x7F, 0xFF, 0xFE] = .ok values ∧
        pack .big sampleMessage values = .ok [0x80, 0, 0x7F, 0xFF, 0xFE]) ∧
      Message.ofElement sampleElement = .ok sampleMessage ∧
      Set.BijOn (fun bytes => (unpack .big sampleMessage bytes).map lookupIn)
        {bytes | bytes.length = sampleMessage.payloadLength}
        {read | ∃ bytes values, unpack .big sampleMessage bytes = .ok values ∧
          read = .ok (lookupIn values)} := by
  have hm : Message.layOut 7 "SAMPLE" none sampleFields = .ok sampleMessage := by rfl
  have helement : Message.ofElement sampleElement = .ok sampleMessage := by rfl
  have hpayload := (unpack_canonical .big).1 hm [0x80, 0, 0x7F, 0xFF, 0xFE]
  obtain ⟨values, h⟩ := hpayload.1.mpr (by decide)
  exact ⟨hm, ⟨values, h, hpayload.2 values h⟩, helement,
    (unpack_canonical .big).2 sampleElement sampleMessage helement⟩

/-- A field without elements has no bytes in the payload, but its step wants some. -/
example : unpack .little ⟨7, "SAMPLE", none, [.declare "Flag" .versionMarker 0 ""]⟩ [] =
    .error .endOfPayload := by
  rfl

end Dialect.Payload

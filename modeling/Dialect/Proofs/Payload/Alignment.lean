import Dialect.Proofs.Listing.Offsets
import Dialect.Proofs.Payload.Collection
import Dialect.Proofs.Payload.RoundTrip
import Mathlib.Algebra.BigOperators.Ring.List
import Mathlib.Algebra.Ring.Nat

/-!
# Where numbers lie in a payload

The steps of a plan leave no gap: each begins where the one before it ends (`Gapless`). Since wider
fields come first, what stands in front of a step are numbers whose widths are multiples of its own,
so it begins at such a multiple. The places that a listing prints, and those at which the codec
finds and leaves the bytes of a number, are the same, and packing and unpacking go through the same
steps (`plan_gapless`).
-/

namespace Dialect.Payload

open Dialect.Listing (leadingNumber?)
open Dialect.Schema (Field Message Wire pairwise_width_wireOrder wireOrder)
open Dialect.Text (padLeft padRight)

/-! ## Steps without gaps -/

/-- Each step begins where the one before it ends, and the first at `offset`. -/
def Gapless (offset : Nat) : List Step → Prop
  | [] => True
  | s :: rest => s.offset = offset ∧ Gapless (offset + s.wire.width) rest

variable {offset : Nat} {steps before behind : List Step} {s : Step}

/-- Two rows of steps leave no gap if neither does, and the second begins where the first ends. -/
theorem gapless_append {more : List Step} :
    Gapless offset (steps ++ more) ↔
      Gapless offset steps ∧ Gapless (offset + (steps.map fun s => s.wire.width).sum) more := by
  induction steps generalizing offset with
  | nil => simp [Gapless]
  | cons s rest ih =>
    rw [List.cons_append, Gapless, Gapless, ih, List.map_cons, List.sum_cons, Nat.add_assoc,
      and_assoc]

/-- A step begins behind all the bytes of those in front of it. -/
theorem Gapless.offset_eq (h : Gapless offset (before ++ s :: behind)) :
    s.offset = offset + (before.map fun b => b.wire.width).sum :=
  (gapless_append.mp h).2.1

/-- The elements of an array lie one behind the other. -/
theorem gapless_elementSteps (f : Field) (index offset count : Nat) :
    Gapless offset (elementSteps f index offset count) := by
  induction count generalizing index offset with
  | zero => trivial
  | succ count ih => exact ⟨rfl, ih (index + 1) (offset + f.type.width)⟩

/-- The steps of a field leave no gap. -/
theorem gapless_fieldSteps (f : Field) (offset : Nat) : Gapless offset (fieldSteps f offset) := by
  rw [fieldSteps]
  split
  · exact gapless_elementSteps f 1 offset f.arity.toNat
  · exact ⟨rfl, trivial⟩

/-- The steps of a message leave no gap, whatever its fields are. -/
theorem gapless_stepsFrom (offset : Nat) (fields : List Field) :
    Gapless offset (stepsFrom offset fields) := by
  induction fields generalizing offset with
  | nil => trivial
  | cons f rest ih =>
    rw [stepsFrom, gapless_append, sum_width_fieldSteps]
    exact ⟨gapless_fieldSteps f offset, ih _⟩

/-! ## The steps of a field -/

/-- What the steps of a field are for, in order: the field, the form and the place in the array. -/
def targets (f : Field) : List (String × Wire × Option Nat) :=
  if 1 < f.arity then
    (List.range f.arity.toNat).map fun i => (f.name, f.type.wire, some (i + 1))
  else [(f.name, f.type.wire, none)]

/-- The steps of an array count its elements up. -/
theorem map_elementSteps (f : Field) (index offset count : Nat) :
    (elementSteps f index offset count).map (fun s => (s.field, s.wire, s.index)) =
      (List.range count).map fun i => (f.name, f.type.wire, some (index + i)) := by
  induction count generalizing index offset with
  | zero => rfl
  | succ count ih =>
    rw [elementSteps, List.map_cons, ih, List.range_succ_eq_map, List.map_cons, List.map_map]
    congr 1
    refine List.map_congr_left fun i _ => ?_
    rw [Function.comp_apply, Nat.succ_eq_add_one, Nat.add_right_comm, Nat.add_assoc]

/-- The steps of a field are for what the field stands for, wherever it begins. -/
theorem map_fieldSteps (f : Field) (offset : Nat) :
    (fieldSteps f offset).map (fun s => (s.field, s.wire, s.index)) = targets f := by
  rw [fieldSteps, targets, Field.isArray]
  by_cases harray : 1 < f.arity
  · rw [if_pos (decide_eq_true harray), if_pos harray, map_elementSteps]
    refine List.map_congr_left fun i _ => ?_
    rw [Nat.add_comm]
  · rw [if_neg (by simpa using harray), if_neg harray]
    rfl

/-- The steps of fields are for what the fields stand for, field by field. -/
theorem map_stepsFrom (offset : Nat) (fields : List Field) :
    (stepsFrom offset fields).map (fun s => (s.field, s.wire, s.index)) =
      fields.flatMap targets := by
  induction fields generalizing offset with
  | nil => rfl
  | cons f rest ih => rw [stepsFrom, List.map_append, map_fieldSteps, ih, List.flatMap_cons]

/-- All steps of a field have its name and its form. -/
theorem targets_eq {f : Field} {target : String × Wire × Option Nat} (h : target ∈ targets f) :
    target.1 = f.name ∧ target.2.1 = f.type.wire := by
  rw [targets] at h
  split at h
  · obtain ⟨i, -, rfl⟩ := List.mem_map.mp h
    exact ⟨rfl, rfl⟩
  · rw [List.mem_singleton.mp h]
    exact ⟨rfl, rfl⟩

/-- A step is for a field, in the form of its type. -/
theorem exists_field_of_mem_stepsFrom {fields : List Field} (h : s ∈ stepsFrom offset fields) :
    ∃ f ∈ fields, s.field = f.name ∧ s.wire = f.type.wire := by
  have hmem := List.mem_map_of_mem (f := fun s => (s.field, s.wire, s.index)) h
  rw [map_stepsFrom] at hmem
  obtain ⟨f, hf, htarget⟩ := List.mem_flatMap.mp hmem
  exact ⟨f, hf, targets_eq htarget⟩

/-- The steps of some fields are followed by those of others, which begin behind all their bytes. -/
theorem stepsFrom_append (offset : Nat) (front back : List Field) :
    stepsFrom offset (front ++ back) =
      stepsFrom offset front ++ stepsFrom (offset + planLength front) back := by
  induction front generalizing offset with
  | nil => rfl
  | cons f rest ih =>
    have hlength : planLength (f :: rest) = f.type.width * stepCount f + planLength rest := rfl
    rw [List.cons_append, stepsFrom, stepsFrom, ih, List.append_assoc, hlength, Nat.add_assoc]

/-- The first step of a field begins where the field does. -/
theorem exists_fieldSteps_eq_cons {f : Field} (h : f.arity ≠ 0) (offset : Nat) :
    ∃ s rest, fieldSteps f offset = s :: rest ∧ s.field = f.name ∧ s.offset = offset := by
  have hpos : stepCount f ≠ 0 := by
    rw [stepCount_of_ne_zero h]
    exact fun hzero => h (UInt8.toNat_inj.mp hzero)
  rw [stepCount] at hpos
  rw [fieldSteps]
  split
  · next harray =>
    rw [if_pos harray] at hpos
    obtain ⟨count, hcount⟩ := Nat.exists_eq_succ_of_ne_zero hpos
    rw [hcount]
    exact ⟨_, _, rfl, rfl, rfl⟩
  · exact ⟨_, _, rfl, rfl, rfl⟩

/-! ## Alignment -/

/-- If widths divide those in front of them among the fields, so they do among the steps. -/
theorem pairwise_width_stepsFrom {fields : List Field}
    (h : fields.Pairwise fun f g => g.type.width ∣ f.type.width) (offset : Nat) :
    (stepsFrom offset fields).Pairwise fun s s' => s'.wire.width ∣ s.wire.width := by
  induction fields generalizing offset with
  | nil => exact .nil
  | cons f rest ih =>
    obtain ⟨hfirst, hrest⟩ := List.pairwise_cons.mp h
    -- the steps of one field have its width
    have hown : ∀ s ∈ fieldSteps f offset, s.wire = f.type.wire := by
      intro s hs
      have hmem := List.mem_map_of_mem (f := fun s => (s.field, s.wire, s.index)) hs
      rw [map_fieldSteps] at hmem
      exact (targets_eq hmem).2
    rw [stepsFrom, List.pairwise_append]
    refine ⟨List.pairwise_of_forall_mem_list fun s hs s' hs' => ?_, ih hrest _,
      fun s hs s' hs' => ?_⟩
    · rw [hown s hs, hown s' hs']
    · obtain ⟨g, hg, -, hwire⟩ := exists_field_of_mem_stepsFrom hs'
      rw [hown s hs, hwire]
      exact hfirst g hg

/-- A step in wire order begins at a multiple of its width. -/
theorem width_dvd_offset {fields : List Field}
    (h : fields.Pairwise fun f g => g.type.width ∣ f.type.width)
    (hsplit : stepsFrom 0 fields = before ++ s :: behind) : s.wire.width ∣ s.offset := by
  have hgapless := gapless_stepsFrom 0 fields
  have hwidths := pairwise_width_stepsFrom h 0
  rw [hsplit] at hgapless hwidths
  rw [hgapless.offset_eq, Nat.zero_add]
  refine List.dvd_sum (R := Nat) fun width hwidth => ?_
  obtain ⟨b, hb, rfl⟩ := List.mem_map.mp hwidth
  exact (List.pairwise_append.mp hwidths).2.2 b hb s List.mem_cons_self

/-! ## The places of fields -/

/-- Without empty arrays, the steps read as many bytes as the fields take. -/
theorem planLength_eq_sum_footprint {fields : List Field} (h : ∀ f ∈ fields, f.arity ≠ 0) :
    planLength fields = (fields.map Field.footprint).sum := by
  rw [planLength]
  congr 1
  refine List.map_congr_left fun f hf => ?_
  rw [Field.footprint, stepCount_of_ne_zero (h f hf)]

/-- The first step for a field begins behind all bytes of the fields in front of it. -/
theorem exists_first_step {m : Message} (hnodup : (m.fields.map Field.name).Nodup)
    (hne : ∀ f ∈ m.fields, f.arity ≠ 0) {front back : List Field} {f : Field}
    (hfields : m.fields = front ++ f :: back) :
    ∃ before s behind, plan m = before ++ s :: behind ∧ s.field = f.name ∧
      (∀ b ∈ before, b.field ≠ f.name) ∧ s.offset = (front.map Field.footprint).sum := by
  have hfront : ∀ g ∈ front, g.arity ≠ 0 := fun g hg => hne g (by simp [hfields, hg])
  obtain ⟨s, own, hsteps, hfield, hoffset⟩ :=
    exists_fieldSteps_eq_cons (hne f (by simp [hfields])) (planLength front)
  refine ⟨stepsFrom 0 front, s,
    own ++ stepsFrom (planLength front + f.type.width * stepCount f) back, ?_, hfield,
    fun b hb hname => ?_, ?_⟩
  · rw [plan, hfields, stepsFrom_append, stepsFrom, Nat.zero_add, hsteps, List.cons_append]
  · obtain ⟨g, hg, hgname, -⟩ := exists_field_of_mem_stepsFrom hb
    rw [hfields, List.map_append, List.nodup_append] at hnodup
    refine hnodup.2.2 g.name (List.mem_map_of_mem hg) f.name ?_ (hgname.symm.trans hname)
    exact List.mem_map_of_mem List.mem_cons_self
  · rw [hoffset, planLength_eq_sum_footprint hfront]

/-- The listing of a message gives the place of a field by the fields in front of it. -/
theorem getElem?_fieldLines (offset : Nat) (front : List Field) (f : Field) (back : List Field) :
    (Listing.fieldLines offset (front ++ f :: back))[front.length]? =
      some (Listing.fieldLine (offset + (front.map Field.footprint).sum) f) := by
  induction front generalizing offset with
  | nil => rfl
  | cons g rest ih =>
    rw [List.cons_append, Listing.fieldLines, List.length_cons, List.getElem?_cons_succ, ih,
      List.map_cons, List.sum_cons, Nat.add_assoc]

/-- The listing of a message has these lines in it, those of the fields and those of the steps of
packing and of unpacking. -/
theorem exists_message_eq (order : ByteOrder) (m : Message) :
    ∃ head rest, Listing.message order m =
      head ++ "\nfields:\n" ++ String.join (Listing.fieldLines 0 m.fields) ++
        "\npack (" ++ Listing.orderText order ++ "):\n" ++
        String.join ((plan m).map Listing.packLine) ++
        "\nunpack:\n" ++ String.join ((plan m).map Listing.unpackLine) ++ rest := by
  have hregroup : ∀ head lines before named behind a b c d e : String,
      head ++ "\nfields:\n" ++ lines ++ (before ++ named ++ behind) ++ a ++ b ++ c ++ d ++ e =
        head ++ "\nfields:\n" ++ lines ++ before ++ named ++ behind ++ a ++ b ++ c ++ (d ++ e) := by
    intros
    simp only [String.append_assoc]
  unfold Listing.message
  exact ⟨_, _, hregroup ..⟩

/-! ## The bytes of a step -/

/-- Numbers in the forms of steps take as many bytes as the steps are wide. -/
theorem length_encodeAll_of_wires (order : ByteOrder) {xs : List Scalar}
    (h : List.Forall₂ (fun s x => x.wire = s.wire) steps xs) :
    (encodeAll order xs).length = (steps.map fun s => s.wire.width).sum := by
  induction h with
  | nil => rfl
  | @cons s x steps xs hwire _ ih =>
    rw [encodeAll_cons, List.length_append, ih, Scalar.length_encode, hwire, List.map_cons,
      List.sum_cons]

/-- Of numbers that stand for the steps of a plan one by one, each has its bytes at the place of its
step, in whatever order they are sent. -/
theorem exists_encode_at_step {R : Step → Scalar → Prop} (hwire : ∀ s x, R s x → x.wire = s.wire)
    {m : Message} {xs : List Scalar} (h : List.Forall₂ R (plan m) xs) (hs : s ∈ plan m) :
    ∃ x, R s x ∧ ∀ order,
      ((encodeAll order xs).drop s.offset).take s.wire.width = x.encode order := by
  obtain ⟨before, behind, hsplit⟩ := List.append_of_mem hs
  have hgapless := gapless_stepsFrom 0 m.fields
  rw [plan] at hsplit h
  rw [hsplit] at hgapless h
  obtain ⟨front, rest, hfront, hrest, rfl⟩ := forall₂_append_iff.mp h
  obtain ⟨x, back, hx, -, rfl⟩ := List.forall₂_cons_left_iff.mp hrest
  refine ⟨x, hx, fun order => ?_⟩
  have hoffset : s.offset = (encodeAll order front).length := by
    rw [hgapless.offset_eq, Nat.zero_add,
      length_encodeAll_of_wires order (hfront.imp fun _ _ => hwire _ _)]
  rw [encodeAll_append, encodeAll_cons, hoffset, List.drop_left, ← hwire s x hx,
    ← Scalar.length_encode order x, List.take_left]

/-- The bytes at the place of a step are those of the number it writes. -/
theorem exists_bytes_of_pack {order : ByteOrder} {m : Message} {values : Values}
    {bytes : List UInt8} (h : pack order m values = .ok bytes) (hs : s ∈ plan m) :
    ∃ x, Writes values s x ∧ (bytes.drop s.offset).take s.wire.width = x.encode order := by
  obtain ⟨-, hsteps⟩ := pack_eq_ok_iff_packSteps.mp h
  obtain ⟨xs, hxs, rfl⟩ := packSteps_eq_ok_iff.mp hsteps
  obtain ⟨x, hx, hbytes⟩ := exists_encode_at_step (fun _ _ hx => hx.wire_eq) hxs hs
  exact ⟨x, hx, hbytes order⟩

/-- **Where numbers lie.** Let a message be laid out of fields that are not without elements. There
is one plan for both directions: one step for a scalar, and one for each element of an array, by
their places from one on, field by field in wire order. A step begins where those in front of it
end, at a multiple of its width, and the last one ends with the payload. The first step for a field
begins behind the bytes that the fields in front of it take, and this is the number that the line of
the field in the listing begins with, as the lines of a step do with where it begins. Packing writes
the steps of the plan one after the other. Unpacking reads them one after the other, and puts what
it reads under the names that they have. So whether values have been packed or unpacked, the bytes
at the place of a step are those of the element that it stands for. -/
theorem plan_gapless {id : UInt8} {name : String} {description : Option String}
    {declared : List Field} {m : Message}
    (hm : Message.layOut id name description declared = .ok m)
    (hne : ∀ f ∈ declared, f.arity ≠ 0) :
    (plan m).map (fun s => (s.field, s.wire, s.index)) = m.fields.flatMap targets ∧
    (∀ before s behind, plan m = before ++ s :: behind →
      s.offset = (before.map fun b => b.wire.width).sum ∧ s.wire.width ∣ s.offset ∧
        (behind = [] → s.offset + s.wire.width = m.payloadLength)) ∧
    (∀ front f back, m.fields = front ++ f :: back →
      ∃ before s behind line, plan m = before ++ s :: behind ∧ s.field = f.name ∧
        (∀ b ∈ before, b.field ≠ f.name) ∧ s.offset = (front.map Field.footprint).sum ∧
        (Listing.fieldLines 0 m.fields)[front.length]? = some line ∧
        line = "  " ++ padLeft 3 (toString s.offset) ++ "  " ++
          padRight 28 (Listing.typeText f) ++ " " ++ padRight 20 f.schemaName ++
          " class=" ++ toString f.rank ++
          (if f.description = "" then "" else "  # " ++ f.description) ++ "\n" ∧
        leadingNumber? line = some s.offset) ∧
    (∀ s ∈ plan m, leadingNumber? (Listing.packLine s) = some s.offset ∧
      leadingNumber? (Listing.unpackLine s) = some s.offset) ∧
    (∀ order, ∃ head rest, Listing.message order m =
      head ++ "\nfields:\n" ++ String.join (Listing.fieldLines 0 m.fields) ++
        "\npack (" ++ Listing.orderText order ++ "):\n" ++
        String.join ((plan m).map Listing.packLine) ++
        "\nunpack:\n" ++ String.join ((plan m).map Listing.unpackLine) ++ rest) ∧
    (∀ order values bytes, pack order m values = .ok bytes →
      packSteps order values (plan m) = .ok bytes) ∧
    (∀ order values bytes, unpack order m bytes = .ok values →
      ∃ xs, readSteps order (plan m) bytes = .ok xs ∧
        ∀ name, values.lookup name = (collect (plan m) xs)[name]?) ∧
    ∀ order values bytes,
      (pack order m values = .ok bytes ∨ unpack order m bytes = .ok values) →
      ∀ s ∈ plan m, ∃ x, s.element? values = some (.scalar x) ∧ x.wire = s.wire ∧
        (bytes.drop s.offset).take s.wire.width = x.encode order := by
  have hnodup := Message.nodup_names_of_layOut hm
  have hfields := fun f hf => hne f ((Message.mem_fields_of_layOut hm).mp hf)
  obtain ⟨-, rfl⟩ := Message.layOut_eq_ok_iff.mp hm
  refine ⟨map_stepsFrom 0 _, fun before s behind hsplit => ?_, fun front f back hsplit => ?_,
    fun s _ => ⟨Listing.leadingNumber?_packLine s, Listing.leadingNumber?_unpackLine s⟩,
    fun order => exists_message_eq order _,
    fun order values bytes h => (pack_eq_ok_iff_packSteps.mp h).2,
    fun order values bytes => exists_collect_of_unpack hnodup,
    fun order values bytes h s hs => ?_⟩
  · have hgapless := gapless_stepsFrom 0 (wireOrder declared)
    have htotal := sum_width_stepsFrom 0 (wireOrder declared)
    rw [plan] at hsplit
    rw [hsplit] at hgapless htotal
    have hoffset := hgapless.offset_eq
    rw [Nat.zero_add] at hoffset
    refine ⟨hoffset, width_dvd_offset (pairwise_width_wireOrder declared) hsplit, ?_⟩
    -- behind the last step there are no widths to add, so the sum is that of the whole plan
    rintro rfl
    rw [List.map_append, List.sum_append, List.map_singleton, List.sum_singleton, ← hoffset]
      at htotal
    rw [htotal]
    exact planLength_eq (m := ⟨id, name, description, wireOrder declared⟩) hfields
  · obtain ⟨before, s, behind, hplan, hfield, hfirst, hoffset⟩ :=
      exists_first_step hnodup hfields hsplit
    have hline := getElem?_fieldLines 0 front f back
    rw [← hsplit, Nat.zero_add, ← hoffset] at hline
    exact ⟨before, s, behind, _, hplan, hfield, hfirst, hoffset, hline,
      Listing.fieldLine_text s.offset f, Listing.leadingNumber?_fieldLine s.offset f⟩
  · have hpack : pack order _ values = .ok bytes := h.elim (·) (pack_of_unpack hnodup)
    obtain ⟨x, hx, hbytes⟩ := exists_bytes_of_pack hpack hs
    exact ⟨x, hx.element_eq, hx.wire_eq, hbytes⟩

/-- A pair of two bytes each, and a flag behind it. -/
theorem plan_gapless_sample :
    Message.layOut 7 "SAMPLE" none sampleFields = .ok sampleMessage ∧
      (∀ f ∈ sampleFields, f.arity ≠ 0) ∧
      plan sampleMessage =
        [⟨"pair", .int16, some 1, 0⟩, ⟨"pair", .int16, some 2, 2⟩, ⟨"flag", .uint8, none, 4⟩] ∧
      4 + Wire.uint8.width = sampleMessage.payloadLength ∧
      (∃ line, (Listing.fieldLines 0 sampleMessage.fields)[1]? = some line ∧
        leadingNumber? line = some 4) ∧
      pack .big sampleMessage sampleValues = .ok [0xFF, 0xFE, 1, 44, 9] ∧
      (∃ x, Step.element? ⟨"pair", .int16, some 2, 2⟩ sampleValues = some (.scalar x) ∧
        x.wire = .int16 ∧ ([0xFF, 0xFE, 1, 44, 9].drop 2).take 2 = x.encode .big) ∧
      ∃ read, unpack .big sampleMessage [0xFF, 0xFE, 1, 44, 9] = .ok read ∧
        ∃ xs, readSteps .big (plan sampleMessage) [0xFF, 0xFE, 1, 44, 9] = .ok xs ∧
          ∀ name, read.lookup name = (collect (plan sampleMessage) xs)[name]? := by
  have hm : Message.layOut 7 "SAMPLE" none sampleFields = .ok sampleMessage := by rfl
  have hne : ∀ f ∈ sampleFields, f.arity ≠ 0 := by decide
  have hplan : plan sampleMessage =
      [⟨"pair", .int16, some 1, 0⟩, ⟨"pair", .int16, some 2, 2⟩, ⟨"flag", .uint8, none, 4⟩] := by
    rfl
  have hpack : pack .big sampleMessage sampleValues = .ok [0xFF, 0xFE, 1, 44, 9] := by rfl
  have hunpack : unpack .big sampleMessage [0xFF, 0xFE, 1, 44, 9] =
      .ok (decodedForm sampleMessage sampleValues) := by rfl
  have hfields : sampleMessage.fields = [.declare "Pair" (.plain .int16) 2 ""] ++
      .declare "Flag" .versionMarker 1 "" :: [] := by rfl
  obtain ⟨-, hoffsets, hlines, -, -, -, hread, hbytes⟩ := plan_gapless hm hne
  obtain ⟨-, -, hend⟩ := hoffsets ((plan sampleMessage).take 2) _ _ hplan
  obtain ⟨-, s, -, line, -, -, -, hoffset, hline, -, hnumber⟩ := hlines _ _ _ hfields
  have hfour : s.offset = 4 := hoffset
  rw [hfour] at hnumber
  exact ⟨hm, hne, hplan, hend rfl, ⟨line, hline, hnumber⟩, hpack,
    hbytes .big sampleValues _ (.inl hpack) _ (by simp [hplan]), _, hunpack,
    hread .big _ _ hunpack⟩

end Dialect.Payload

import Dialect.Schema.Layout
import Mathlib.Algebra.GroupWithZero.Nat
import Mathlib.Data.List.Nodup

/-!
# What laying out a message keeps

Laying out only moves fields, so a message has the fields that were declared, each exactly once, and
it has them in the order of their alignment classes. It is refused for a repeated name and for
nothing else: the names in a message are pairwise distinct.
-/

namespace Dialect.Schema

/-- Placing a field adds it and moves nothing out. -/
theorem place_perm (f : Field) (fields : List Field) : (place f fields).Perm (f :: fields) := by
  induction fields with
  | nil => exact List.Perm.refl _
  | cons g rest ih =>
    rw [place]
    split
    · exact List.Perm.refl _
    · exact (ih.cons g).trans (List.Perm.swap f g rest)

/-- The wire order is a rearrangement of the declared fields. -/
theorem wireOrder_perm (declared : List Field) : (wireOrder declared).Perm declared := by
  induction declared with
  | nil => exact List.Perm.refl _
  | cons f rest ih => exact (place_perm f (wireOrder rest)).trans (ih.cons f)

/-- Placing a field keeps fields in the order of their alignment classes. -/
theorem pairwise_place {f : Field} {fields : List Field}
    (h : fields.Pairwise fun g g' => g.rank ≤ g'.rank) :
    (place f fields).Pairwise fun g g' => g.rank ≤ g'.rank := by
  induction fields with
  | nil => exact List.pairwise_singleton _ f
  | cons g rest ih =>
    obtain ⟨hfirst, hrest⟩ := List.pairwise_cons.mp h
    rw [place]
    by_cases hrank : f.rank ≤ g.rank
    · rw [if_pos hrank]
      refine List.pairwise_cons.mpr ⟨fun g' hg' => ?_, h⟩
      rcases List.mem_cons.mp hg' with rfl | hg'
      · exact hrank
      · exact Nat.le_trans hrank (hfirst g' hg')
    · rw [if_neg hrank]
      refine List.pairwise_cons.mpr ⟨fun g' hg' => ?_, ih hrest⟩
      -- behind `g` stand the fields that stood there before, and now `f`
      rcases List.mem_cons.mp ((place_perm f rest).mem_iff.mp hg') with rfl | hg'
      · omega
      · exact hfirst g' hg'

/-- In wire order no field stands behind one of a later alignment class. -/
theorem pairwise_wireOrder (declared : List Field) :
    (wireOrder declared).Pairwise fun f g => f.rank ≤ g.rank := by
  induction declared with
  | nil => exact .nil
  | cons f rest ih => exact pairwise_place ih

/-- The number of bytes that the types of an alignment class have. -/
def AlignmentClass.width : AlignmentClass → Nat
  | wide => 8
  | word => 4
  | half => 2
  | byte => 1

/-- A type is as wide as its class. -/
theorem Primitive.width_eq (p : Primitive) : p.width = p.alignment.width := by
  rw [Primitive.width, Primitive.alignment]
  cases p.wire <;> rfl

/-- Classes that come later have widths that divide those in front. -/
theorem AlignmentClass.width_dvd {c c' : AlignmentClass} (h : c.rank ≤ c'.rank) :
    c'.width ∣ c.width := by
  revert h
  cases c <;> cases c' <;> decide

/-- In wire order the width of a field is a multiple of those of the fields behind it. -/
theorem pairwise_width_wireOrder (declared : List Field) :
    (wireOrder declared).Pairwise fun f g => g.type.width ∣ f.type.width := by
  refine (pairwise_wireOrder declared).imp fun {f g} hrank => ?_
  rw [f.type.width_eq, g.type.width_eq]
  exact AlignmentClass.width_dvd hrank

/-- No name is found twice exactly if all are distinct and none was seen before. -/
theorem firstRepeat?_eq_none_iff (seen : List String) (declared : List Field) :
    firstRepeat? seen declared = none ↔
      (declared.map Field.name).Nodup ∧ ∀ f ∈ declared, f.name ∉ seen := by
  induction declared generalizing seen with
  | nil => simp [firstRepeat?]
  | cons f rest ih =>
    rw [firstRepeat?]
    split
    · next hseen => simp [hseen]
    · next hseen =>
      -- behind `f` a name is fresh if it was not seen before and is not that of `f`
      rw [ih, List.map_cons, List.nodup_cons, List.mem_map]
      constructor
      · rintro ⟨hnodup, hfresh⟩
        refine ⟨⟨?_, hnodup⟩, ?_⟩
        · rintro ⟨g, hg, hname⟩
          exact hfresh g hg (by simp [hname])
        · intro g hg
          rcases List.mem_cons.mp hg with rfl | hg
          · exact hseen
          · exact fun h => hfresh g hg (List.mem_cons_of_mem _ h)
      · rintro ⟨⟨hne, hnodup⟩, hfresh⟩
        refine ⟨hnodup, ?_⟩
        intro g hg h
        rcases List.mem_cons.mp h with h | h
        · exact hne ⟨g, hg, h⟩
        · exact hfresh g (List.mem_cons_of_mem _ hg) h

variable {id : UInt8} {name : String} {description : Option String} {declared : List Field}
  {m : Message}

/-- Declared fields make a message exactly if their names are distinct, and then this one. -/
theorem Message.layOut_eq_ok_iff :
    Message.layOut id name description declared = .ok m ↔
      (declared.map Field.name).Nodup ∧ m = ⟨id, name, description, wireOrder declared⟩ := by
  have hnone := firstRepeat?_eq_none_iff [] declared
  rw [Message.layOut]
  cases h : firstRepeat? [] declared with
  | none =>
    have hnodup := (hnone.mp h).1
    simp [hnodup, eq_comm]
  | some f =>
    have hnot : ¬ (declared.map Field.name).Nodup := by
      intro hnodup
      rw [hnone.mpr ⟨hnodup, by simp⟩] at h
      exact absurd h (by simp)
    simp [hnot]

/-- A payload is as long as its elements are wide together. -/
theorem Message.payloadLength_eq_sum (m : Message) :
    m.payloadLength = (m.fields.map fun f => f.type.width * f.arity.toNat).sum := by
  rw [payloadLength, List.sum_eq_foldr, List.foldr_map]
  rfl

/-- The fields of a message are those declared. -/
theorem Message.mem_fields_of_layOut (h : Message.layOut id name description declared = .ok m)
    {f : Field} : f ∈ m.fields ↔ f ∈ declared := by
  obtain ⟨-, rfl⟩ := Message.layOut_eq_ok_iff.mp h
  exact (wireOrder_perm declared).mem_iff

/-- The names of the fields of a message are pairwise distinct. -/
theorem Message.nodup_names_of_layOut
    (h : Message.layOut id name description declared = .ok m) :
    (m.fields.map Field.name).Nodup := by
  obtain ⟨hnodup, rfl⟩ := Message.layOut_eq_ok_iff.mp h
  exact ((wireOrder_perm declared).map Field.name).nodup_iff.mpr hnodup

end Dialect.Schema

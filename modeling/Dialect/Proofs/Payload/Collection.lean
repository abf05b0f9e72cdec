import Dialect.Proofs.Payload.Contents
import Std.Data.HashMap.Lemmas

/-!
# Values under the names of their fields

Unpacking deals the numbers of a payload to the fields by their positions. It could as well go
through the steps one by one and put each number under the name of its field (`collect`), where the
elements of an array come one behind the other. If the names are distinct, both give the same
values (`lookup_gather`).
-/

namespace Dialect.Payload

open Dialect.Schema (Field Message)

/-- Puts a number under the name of the field whose step has read it: in the place of what is there,
if the field is a scalar, and behind what is in the list there, if it is an array. -/
def keep (values : Std.HashMap String Value) : Step × Scalar → Std.HashMap String Value
  | (s, x) =>
    match s.index, values.getD s.field (.list []) with
    | none, _ => values.insert s.field (.scalar x)
    | some _, .list items => values.insert s.field (.list (items ++ [.scalar x]))
    | some _, .scalar _ => values

/-- What steps have read, number by number, under the names of their fields. -/
def collect (steps : List Step) (xs : List Scalar) : Std.HashMap String Value :=
  (steps.zip xs).foldl keep ∅

variable {f : Field} {fields : List Field} {xs : List Scalar} {name : String}
  {values : Std.HashMap String Value}

/-- An element goes behind those that are there, be there none. -/
theorem keep_element {s : Step} {i : Nat} {items : List Value} (x : Scalar)
    (hindex : s.index = some i) (hitems : values.getD s.field (.list []) = .list items) :
    keep values (s, x) = values.insert s.field (.list (items ++ [.scalar x])) := by
  rw [keep, hindex, hitems]

/-- Elements go behind those that are there, and nothing else changes. -/
theorem getElem?_foldl_elementSteps {items : List Value} {count : Nat} (index offset : Nat)
    (hcount : xs.length = count) (hitems : values[f.name]? = some (.list items)) :
    (((elementSteps f index offset count).zip xs).foldl keep values)[name]? =
      if f.name = name then some (.list (items ++ xs.map Value.scalar)) else values[name]? := by
  induction xs generalizing count index offset values items with
  | nil =>
    subst hcount
    split
    · next hname =>
      rw [← hname, List.map_nil, List.append_nil]
      exact hitems
    · rfl
  | cons x xs ih =>
    subst hcount
    -- the first element goes behind those there are, and the list stays under the name
    have hthere : values.getD f.name (.list []) = .list items := by
      rw [Std.HashMap.getD_eq_getD_getElem?, hitems, Option.getD_some]
    rw [List.length_cons, elementSteps, List.zip_cons_cons, List.foldl_cons,
      keep_element x rfl hthere, ih _ _ rfl Std.HashMap.getElem?_insert_self, Std.HashMap.getElem?_insert, List.map_cons,
      List.append_assoc, List.singleton_append]
    by_cases hname : f.name = name
    · simp [hname]
    · simp [hname]

/-- The numbers of a field become its value, and nothing else changes. -/
theorem getElem?_foldl_fieldSteps (offset : Nat) (hcount : xs.length = stepCount f)
    (hfree : values[f.name]? = none) :
    (((fieldSteps f offset).zip xs).foldl keep values)[name]? =
      if f.name = name then some (valueOf f (xs.map Value.scalar)) else values[name]? := by
  rw [stepCount] at hcount
  rw [fieldSteps, valueOf]
  split at hcount
  · next harray =>
    -- the first element makes the list, and the others go behind it
    have hpos : 0 < f.arity.toNat := by
      have hmany : 1 < f.arity := of_decide_eq_true harray
      exact Nat.zero_lt_of_lt (UInt8.lt_iff_toNat_lt.mp hmany)
    obtain ⟨x, rest, rfl⟩ := List.exists_cons_of_length_pos (hcount ▸ hpos)
    have hnone : values.getD f.name (.list []) = .list [] := by
      rw [Std.HashMap.getD_eq_getD_getElem?, hfree, Option.getD_none]
    rw [if_pos harray, if_pos harray, ← hcount, List.length_cons, elementSteps,
      List.zip_cons_cons, List.foldl_cons, keep_element x rfl hnone, List.nil_append,
      getElem?_foldl_elementSteps _ _ rfl Std.HashMap.getElem?_insert_self,
      Std.HashMap.getElem?_insert]
    by_cases hname : f.name = name
    · simp [hname]
    · simp [hname]
  · next hscalar =>
    obtain ⟨x, rfl⟩ := List.length_eq_one_iff.mp hcount
    rw [if_neg hscalar, if_neg hscalar]
    show (values.insert f.name (.scalar x))[name]? = _
    rw [Std.HashMap.getElem?_insert]
    by_cases hname : f.name = name
    · simp [hname]
    · simp [hname]

/-- A name is that of the first field, or is looked up among the others. -/
theorem lookup_valuesOf_cons {xss : List (List Scalar)} :
    (valuesOf (f :: fields) (xs :: xss)).lookup name =
      if f.name = name then some (valueOf f (xs.map Value.scalar))
      else (valuesOf fields xss).lookup name := by
  show List.lookup name ((f.name, valueOf f (xs.map Value.scalar)) :: valuesOf fields xss) = _
  rw [List.lookup_cons]
  by_cases hname : f.name = name
  · rw [if_pos hname, hname, beq_self_eq_true]
  · rw [if_neg hname, beq_false_of_ne (Ne.symm hname)]

/-- What is found under a name behind the steps of some fields is the value of the field with this
name, or what was there before. -/
theorem getElem?_foldl_stepsFrom {xss : List (List Scalar)} (h : List.Forall₂ Fits fields xss)
    (offset : Nat) (hnodup : (fields.map Field.name).Nodup)
    (hfree : ∀ f ∈ fields, values[f.name]? = none) :
    (((stepsFrom offset fields).zip xss.flatten).foldl keep values)[name]? =
      values[name]?.or ((valuesOf fields xss).lookup name) := by
  -- on the fields; the first leaves its value, and no other field has its name
  induction h generalizing offset values with
  | nil => exact Option.or_none.symm
  | @cons f xs fields xss hfits _ ih =>
    rw [List.map_cons, List.nodup_cons] at hnodup
    obtain ⟨hnew, hnodup⟩ := hnodup
    obtain ⟨hfirst, hfree⟩ := List.forall_mem_cons.mp hfree
    have hlength : (fieldSteps f offset).length = xs.length :=
      ((forall₂_wire_fieldSteps_iff f offset xs).mpr hfits).length_eq
    rw [stepsFrom, List.flatten_cons, List.zip_append hlength, List.foldl_append, ih,
      getElem?_foldl_fieldSteps offset hfits.length_eq hfirst, lookup_valuesOf_cons]
    · by_cases hname : f.name = name
      · rw [if_pos hname, if_pos hname, ← hname, hfirst]
        rfl
      · rw [if_neg hname, if_neg hname]
    · exact hnodup
    · intro g hg
      rw [getElem?_foldl_fieldSteps offset hfits.length_eq hfirst, if_neg, hfree g hg]
      intro hname
      exact hnew (hname ▸ List.mem_map_of_mem hg)

/-- Dealing numbers to their fields by position is putting them, one after the other, under the
names that their steps have. -/
theorem lookup_gather (hnodup : (fields.map Field.name).Nodup)
    (h : List.Forall₂ (fun s x => x.wire = s.wire) (stepsFrom 0 fields) xs) (name : String) :
    (gather fields xs).lookup name = (collect (stepsFrom 0 fields) xs)[name]? := by
  obtain ⟨xss, hxss, rfl⟩ :=
    (forall₂_stepsFrom_iff forall₂_wire_fieldSteps_iff 0 fields xs).mp h
  rw [collect, getElem?_foldl_stepsFrom hxss 0 hnodup fun _ _ => Std.HashMap.getElem?_empty,
    gather_flatten hxss, Std.HashMap.getElem?_empty, Option.none_or]

/-- What has been unpacked is what the steps of the plan have read, put under their names. -/
theorem exists_collect_of_unpack {order : ByteOrder} {m : Message} {bytes : List UInt8}
    {values : Values} (hnodup : (m.fields.map Field.name).Nodup)
    (h : unpack order m bytes = .ok values) :
    ∃ xs, readSteps order (plan m) bytes = .ok xs ∧
      ∀ name, values.lookup name = (collect (plan m) xs)[name]? := by
  rw [unpack] at h
  split at h
  · exact absurd h (by simp)
  · obtain ⟨xs, hread, rfl⟩ := map_eq_ok_iff.mp h
    exact ⟨xs, hread, lookup_gather hnodup (readSteps_eq_ok_iff.mp hread).1⟩

end Dialect.Payload

import Dialect.Proofs.Outcome
import Dialect.Schema.Table
import Mathlib.Data.List.Nodup
import Mathlib.Data.List.Perm.Basic

/-!
# What a compatibility table holds

A slot is filled exactly if its id is one of the table and was free (`Table.register_eq_ok_iff`), so
the ids of the filled slots are pairwise distinct and none lies outside (`Table.Lawful`). In such a
table looking up an id and listing the slots in id order both give just the slots that were filled.
-/

namespace Dialect.Schema

namespace Table

variable {t t' : Table} {id : UInt8} {name : String} {code : UInt8}

/-- A slot is filled exactly if its id is admitted and free. -/
theorem register_eq_ok_iff :
    t.register id name code = .ok t' ↔
      id ≤ maxId ∧ t.slot? id = none ∧ t' = ⟨t.slots ++ [⟨id, name, code⟩]⟩ := by
  rw [register]
  by_cases hid : maxId < id
  · simp [hid, UInt8.not_le.mpr hid]
  · rcases t.slot? id with _ | existing
    · simp [hid, UInt8.not_lt.mp hid, eq_comm]
    · simp [hid]

theorem slot?_eq_none_iff : t.slot? id = none ↔ ∀ s ∈ t.slots, s.id ≠ id := by
  simp [slot?]

/-- No id has two slots, and none lies outside the table. -/
structure Lawful (t : Table) : Prop where
  nodup : (t.slots.map Slot.id).Nodup
  id_le : ∀ s ∈ t.slots, s.id ≤ maxId

/-- The empty table is lawful. -/
theorem lawful_empty : Lawful {} := ⟨.nil, nofun⟩

/-- A registration that is accepted keeps the table lawful. -/
theorem Lawful.of_register (ht : t.Lawful) (h : t.register id name code = .ok t') : t'.Lawful := by
  obtain ⟨hid, hfree, rfl⟩ := register_eq_ok_iff.mp h
  rw [slot?_eq_none_iff] at hfree
  constructor
  · rw [List.map_append, List.nodup_append]
    refine ⟨ht.nodup, List.nodup_singleton id, ?_⟩
    intro a ha b hb
    obtain ⟨s, hs, rfl⟩ := List.mem_map.mp ha
    obtain rfl := List.mem_singleton.mp hb
    exact hfree s hs
  · intro s hs
    rcases List.mem_append.mp hs with hs | hs
    · exact ht.id_le s hs
    · obtain rfl := List.mem_singleton.mp hs
      exact hid

/-- An id finds the slot that has it. -/
theorem Lawful.slot?_eq_some_iff (ht : t.Lawful) {s : Slot} :
    t.slot? id = some s ↔ s ∈ t.slots ∧ s.id = id := by
  constructor
  · intro h
    exact ⟨List.mem_of_find?_eq_some h, by simpa using List.find?_some h⟩
  · rintro ⟨hs, rfl⟩
    rcases hfound : t.slot? s.id with _ | s'
    · exact absurd rfl (slot?_eq_none_iff.mp hfound s hs)
    · have hmem : s' ∈ t.slots := List.mem_of_find?_eq_some hfound
      have hid : s'.id = s.id := by simpa using List.find?_some hfound
      rw [List.inj_on_of_nodup_map ht.nodup hmem hs hid]

/-- The ids that have a slot are those up to the largest. -/
theorem mem_ids_iff : id ∈ ids ↔ id ≤ maxId := by
  rw [ids, List.mem_map]
  constructor
  · rintro ⟨n, hn, rfl⟩
    rw [List.mem_range] at hn
    rw [UInt8.le_iff_toNat_le, UInt8.toNat_ofNat']
    exact Nat.le_trans (Nat.mod_le n _) (Nat.le_of_lt_succ hn)
  · intro h
    exact ⟨id.toNat, List.mem_range.mpr (Nat.lt_succ_of_le h), UInt8.ofNat_toNat⟩

theorem pairwise_ids : ids.Pairwise (· < ·) := by
  rw [ids, List.pairwise_map]
  refine List.Pairwise.imp_of_mem (fun {a b} ha hb hlt => ?_) List.pairwise_lt_range
  have hsize : size ≤ 256 := by decide
  rw [List.mem_range] at ha hb
  rw [UInt8.lt_iff_toNat_lt, UInt8.toNat_ofNat', UInt8.toNat_ofNat']
  omega

theorem nodup_ids : ids.Nodup := pairwise_ids.imp UInt8.ne_of_lt

/-- A slot that is found under an id has this id. -/
theorem id_of_slot? {s : Slot} (h : t.slot? id = some s) : s.id = id := by
  simpa using List.find?_some h

/-- The slots are listed in the order of their ids. -/
theorem pairwise_entries (t : Table) : t.entries.Pairwise fun s s' => s.id < s'.id := by
  rw [entries, List.pairwise_filterMap]
  refine pairwise_ids.imp fun hlt s hs s' hs' => ?_
  rwa [id_of_slot? hs, id_of_slot? hs']

theorem length_codes (t : Table) : t.codes.length = size := by
  rw [codes, ids, List.length_map, List.length_map, List.length_range]

/-- The codes of a table stand by their ids. -/
theorem getElem?_codes (t : Table) {i : Nat} (h : i < size) :
    t.codes[i]? = some (t.code (UInt8.ofNat i)) := by
  rw [codes, ids, List.map_map, List.getElem?_map, List.getElem?_range h]
  rfl

/-- The slots listed in id order are the filled ones, each once. -/
theorem Lawful.entries_perm (ht : t.Lawful) : t.entries.Perm t.slots := by
  have hentries : t.entries.Nodup := by
    refine List.Nodup.filterMap ?_ nodup_ids
    intro a b s ha hb
    rw [Option.mem_def, ht.slot?_eq_some_iff] at ha hb
    exact ha.2.symm.trans hb.2
  refine (List.perm_ext_iff_of_nodup hentries ht.nodup.of_map).mpr fun s => ?_
  rw [entries, List.mem_filterMap]
  constructor
  · rintro ⟨id, -, hs⟩
    exact (ht.slot?_eq_some_iff.mp hs).1
  · intro hs
    exact ⟨s.id, mem_ids_iff.mpr (ht.id_le s hs), ht.slot?_eq_some_iff.mpr ⟨hs, rfl⟩⟩

end Table

end Dialect.Schema

import Dialect.Proofs.Schema.Document

/-!
# Calls on a table

A table comes about by calls, each of which fills a slot or is refused (`Registration`). What any
number of them leave behind under an id is what the first call with that id has put there
(`slot?_registerAll`): the later ones, and those whose id is none of the table, change nothing. All
the ways to read a table give an account of just this (`registerAll_writeOnce`).
-/

namespace Dialect.Schema

/-- A call that fills a slot of a table. -/
inductive Registration where
  | slot (id : UInt8) (name : String) (code : UInt8)
  | message (m : Message)
  deriving DecidableEq, Repr

namespace Registration

/-- What the call puts in the slot. -/
def entry : Registration → Slot
  | slot id name code => ⟨id, name, code⟩
  | message m => m.slot

/-- The answer of a table to the call. -/
def perform (t : Table) : Registration → Except Fault Table
  | slot id name code => t.register id name code
  | message m => t.registerMessage m

/-- A call is refused for an id that is none of the table or that is taken, and for nothing else. -/
theorem perform_cases (t : Table) (r : Registration) :
    (maxId < r.entry.id ∧ r.perform t = .error (.invalidId r.entry.name s!"{r.entry.id}")) ∨
      (∃ existing, r.entry.id ≤ maxId ∧ t.slot? r.entry.id = some existing ∧
        r.perform t = .error (.duplicateId r.entry.id r.entry.name existing.name)) ∨
      (r.entry.id ≤ maxId ∧ t.slot? r.entry.id = none ∧
        r.perform t = .ok ⟨t.slots ++ [r.entry]⟩) := by
  have hperform : r.perform t = t.register r.entry.id r.entry.name r.entry.code := by
    cases r with
    | slot id name code => rfl
    | message m => rfl
  rw [hperform, Table.register]
  by_cases hid : maxId < r.entry.id
  · exact .inl ⟨hid, if_pos hid⟩
  · rw [if_neg hid]
    rcases hslot : t.slot? r.entry.id with _ | existing
    · exact .inr (.inr ⟨UInt8.not_lt.mp hid, rfl, rfl⟩)
    · exact .inr (.inl ⟨existing, UInt8.not_lt.mp hid, rfl, rfl⟩)

end Registration

namespace Table

variable {t : Table} {id : UInt8}

/-- The table after a call. One that is refused leaves it as it is. -/
def after (t : Table) (r : Registration) : Table :=
  match r.perform t with
  | .ok t' => t'
  | .error _ => t

/-- The table after calls that are made one after the other. -/
def registerAll (t : Table) (calls : List Registration) : Table := calls.foldl after t

/-- The calls that are not refused when they are made one after the other. -/
def accepted (t : Table) : List Registration → List Registration
  | [] => []
  | r :: rest =>
    match r.perform t with
    | .ok t' => r :: accepted t' rest
    | .error _ => accepted t rest

/-! ## One call -/

/-- A refused registration leaves the table as it was. -/
theorem after_of_error {r : Registration} {fault : Fault} (h : r.perform t = .error fault) :
    t.after r = t := by
  rw [after, h]

/-- A registration that is accepted leaves the table that it gives. -/
theorem after_of_ok {r : Registration} {t' : Table} (h : r.perform t = .ok t') :
    t.after r = t' := by
  rw [after, h]

/-- A new slot is found under its id, unless the id had one. -/
theorem slot?_append (s : Slot) :
    (⟨t.slots ++ [s]⟩ : Table).slot? id = (t.slot? id).or (if s.id = id then some s else none) := by
  rw [slot?, List.find?_append, ← slot?, List.find?_singleton]
  simp only [beq_iff_eq]

/-- A call fills the slot of its id, if there is one and it is free, and no other. -/
theorem slot?_after (r : Registration) :
    (t.after r).slot? id =
      (t.slot? id).or (if r.entry.id = id ∧ id ≤ maxId then some r.entry else none) := by
  rcases r.perform_cases t with ⟨hid, h⟩ | ⟨existing, -, hslot, h⟩ | ⟨hid, -, h⟩
  · have hnot : ¬ (r.entry.id = id ∧ id ≤ maxId) := by
      rintro ⟨rfl, hle⟩
      exact UInt8.not_lt.mpr hle hid
    rw [after_of_error h, if_neg hnot, Option.or_none]
  · rw [after_of_error h]
    by_cases hsame : r.entry.id = id
    · rw [← hsame, hslot, Option.some_or]
    · rw [if_neg fun hboth => hsame hboth.1, Option.or_none]
  · rw [after_of_ok h, slot?_append]
    by_cases hsame : r.entry.id = id
    · rw [if_pos hsame, if_pos ⟨hsame, hsame ▸ hid⟩]
    · rw [if_neg hsame, if_neg fun hboth => hsame hboth.1]

/-- A registration leaves the table lawful, be it accepted or not. -/
theorem Lawful.after (h : t.Lawful) (r : Registration) : (t.after r).Lawful := by
  rcases r.perform_cases t with ⟨-, hr⟩ | ⟨existing, -, -, hr⟩ | ⟨hid, hfree, hr⟩
  · rwa [after_of_error hr]
  · rwa [after_of_error hr]
  · rw [after_of_ok hr]
    exact h.of_register (register_eq_ok_iff.mpr ⟨hid, hfree, rfl⟩)

/-! ## Many calls -/

/-- Behind any calls, an id finds what the first call with that id has put there. -/
theorem slot?_registerAll (calls : List Registration) :
    (t.registerAll calls).slot? id =
      (t.slot? id).or
        (if id ≤ maxId then (calls.find? (·.entry.id == id)).map Registration.entry else none) := by
  induction calls generalizing t with
  | nil => simp [registerAll]
  | cons r rest ih =>
    rw [registerAll, List.foldl_cons, ← registerAll, ih, slot?_after, Option.or_assoc,
      List.find?_cons]
    congr 1
    by_cases hsame : r.entry.id = id
    · by_cases hid : id ≤ maxId
      · simp [hsame, hid]
      · simp [hid]
    · simp only [hsame, false_and, if_false, Option.none_or, beq_false_of_ne hsame]

/-- A slot is filled by the first registration of its id, if the id can have a slot. -/
theorem slot?_registerAll_empty (calls : List Registration) (id : UInt8) :
    (registerAll {} calls).slot? id =
      if id ≤ maxId then (calls.find? (·.entry.id == id)).map Registration.entry else none :=
  slot?_registerAll calls

/-- A call on a table that has been made by calls is answered according to its id and to the first
of these that had it. -/
theorem perform_registerAll (front : List Registration) (r : Registration) :
    r.perform (registerAll {} front) =
      if maxId < r.entry.id then .error (.invalidId r.entry.name s!"{r.entry.id}")
      else
        match front.find? (·.entry.id == r.entry.id) with
        | some first => .error (.duplicateId r.entry.id r.entry.name first.entry.name)
        | none => .ok ⟨(registerAll {} front).slots ++ [r.entry]⟩ := by
  have hslot := slot?_registerAll_empty front r.entry.id
  rcases r.perform_cases (registerAll {} front) with
    ⟨hid, hr⟩ | ⟨existing, hid, hexisting, hr⟩ | ⟨hid, hfree, hr⟩
  · rw [hr, if_pos hid]
  · rw [hexisting, if_pos hid] at hslot
    obtain ⟨first, hfirst, rfl⟩ := Option.map_eq_some_iff.mp hslot.symm
    rw [hr, if_neg (UInt8.not_lt.mpr hid), hfirst]
  · rw [hfree, if_pos hid] at hslot
    rw [hr, if_neg (UInt8.not_lt.mpr hid), Option.map_eq_none_iff.mp hslot.symm]

/-- A call is accepted exactly if its id is one of the table and no call before it had it. -/
theorem exists_perform_registerAll_iff (front : List Registration) (r : Registration) :
    (∃ t, r.perform (registerAll {} front) = .ok t) ↔
      r.entry.id ≤ maxId ∧ ∀ earlier ∈ front, earlier.entry.id ≠ r.entry.id := by
  rw [perform_registerAll]
  by_cases hid : maxId < r.entry.id
  · simp [hid, UInt8.not_le.mpr hid]
  · rw [if_neg hid]
    cases hfind : front.find? (·.entry.id == r.entry.id) with
    | none =>
      have hnew := List.find?_eq_none.mp hfind
      exact ⟨fun _ => ⟨UInt8.not_lt.mp hid, by simpa using hnew⟩, fun _ => ⟨_, rfl⟩⟩
    | some first =>
      have hsame : first.entry.id = r.entry.id := by simpa using List.find?_some hfind
      have hmem := List.mem_of_find?_eq_some hfind
      exact ⟨by simp, fun ⟨_, hnew⟩ => absurd hsame (hnew first hmem)⟩

/-- The filled slots are those of the calls that were not refused, in the same order. -/
theorem slots_registerAll (calls : List Registration) :
    (t.registerAll calls).slots = t.slots ++ (t.accepted calls).map Registration.entry := by
  induction calls generalizing t with
  | nil => exact (List.append_nil _).symm
  | cons r rest ih =>
    rw [registerAll, List.foldl_cons, ← registerAll, ih, accepted]
    rcases r.perform_cases t with ⟨-, hr⟩ | ⟨existing, -, -, hr⟩ | ⟨-, -, hr⟩
    · rw [after_of_error hr, hr]
    · rw [after_of_error hr, hr]
    · rw [after_of_ok hr, hr, List.map_cons, List.append_assoc, List.singleton_append]

/-- Registrations leave the table lawful. -/
theorem Lawful.registerAll (h : t.Lawful) (calls : List Registration) :
    (t.registerAll calls).Lawful := by
  induction calls generalizing t with
  | nil => exact h
  | cons r rest ih => exact ih (h.after r)

/-- **A slot is written once.** Let calls be made one after the other on an empty table. Each of
them is accepted exactly if its id is one of the table and no earlier call had it. For another id it
is refused as such, and for one that was used before it is refused with the name of the first call
that had it; what is refused leaves the table as it is. In the end the name and the code under an id
are those of the first call with this id, and under other ids there are none and code zero. The
slots are listed in strictly ascending order of their ids, and are just those of the calls that were
accepted; they are counted as many as these; and there are 255 codes, which are the codes under the
ids from zero on. -/
theorem registerAll_writeOnce (calls : List Registration) :
    (∀ front r back, calls = front ++ r :: back →
      ((∃ t, r.perform (registerAll {} front) = .ok t) ↔
        r.entry.id ≤ maxId ∧ ∀ earlier ∈ front, earlier.entry.id ≠ r.entry.id) ∧
      (maxId < r.entry.id →
        r.perform (registerAll {} front) =
          .error (.invalidId r.entry.name s!"{r.entry.id}")) ∧
      (r.entry.id ≤ maxId → ∀ first, front.find? (·.entry.id == r.entry.id) = some first →
        r.perform (registerAll {} front) =
          .error (.duplicateId r.entry.id r.entry.name first.entry.name)) ∧
      ∀ fault, r.perform (registerAll {} front) = .error fault →
        registerAll {} (front ++ [r]) = registerAll {} front) ∧
    (∀ id ≤ maxId, ∀ first, calls.find? (·.entry.id == id) = some first →
      (registerAll {} calls).name? id = some first.entry.name ∧
        (registerAll {} calls).code id = first.entry.code ∧ (registerAll {} calls).isSet id) ∧
    (∀ id, (maxId < id ∨ ∀ r ∈ calls, r.entry.id ≠ id) →
      (registerAll {} calls).name? id = none ∧ (registerAll {} calls).code id = 0 ∧
        ¬ (registerAll {} calls).isSet id) ∧
    (registerAll {} calls).entries.Pairwise (fun s s' => s.id < s'.id) ∧
    (registerAll {} calls).entries.Perm ((accepted {} calls).map Registration.entry) ∧
    (registerAll {} calls).count = (accepted {} calls).length ∧
    (registerAll {} calls).codes.length = 255 ∧
    ∀ i < 255, (registerAll {} calls).codes[i]? =
      some ((registerAll {} calls).code (UInt8.ofNat i)) := by
  -- all views of the table are views of its slots, and these are what the accepted calls asked for
  have hslots : (registerAll {} calls).slots = (accepted {} calls).map Registration.entry :=
    slots_registerAll calls
  refine ⟨?_, ?_, ?_, pairwise_entries _, ?_, ?_, ?_, fun i hi => getElem?_codes _ hi⟩
  · rintro front r back -
    have hr := perform_registerAll front r
    refine ⟨exists_perform_registerAll_iff front r, fun hid => ?_, fun hid first hfirst => ?_,
      fun fault hfault => ?_⟩
    · rw [hr, if_pos hid]
    · rw [hr, if_neg (UInt8.not_lt.mpr hid), hfirst]
    · rw [registerAll, List.foldl_append]
      exact after_of_error hfault
  · intro id hid first hfirst
    have hslot := slot?_registerAll_empty calls id
    rw [if_pos hid, hfirst, Option.map_some] at hslot
    simp [name?, code, isSet, hslot]
  · intro id hnone
    have hslot : (registerAll {} calls).slot? id = none := by
      rw [slot?_registerAll_empty]
      rcases hnone with hid | hnew
      · rw [if_neg (UInt8.not_le.mpr hid)]
      · have hfind : calls.find? (·.entry.id == id) = none :=
          List.find?_eq_none.mpr fun r hr => by simpa using hnew r hr
        rw [hfind, Option.map_none, ite_self]
    simp [name?, code, isSet, hslot]
  · rw [← hslots]
    exact (lawful_empty.registerAll calls).entries_perm
  · rw [count, hslots, List.length_map]
  · exact length_codes _

/-- Calls of which the second, the third and the last are refused. -/
def sampleCalls : List Registration :=
  [.slot 3 "ZERO" 0, .slot 3 "AGAIN" 9, .slot 255 "OUTSIDE" 1, .message ⟨0, "NONE", none, []⟩,
    .message ⟨3, "NONE", none, []⟩]

/-- An id that is registered twice, and one that has no slot. -/
theorem registerAll_writeOnce_sample :
    Registration.perform (registerAll {} (sampleCalls.take 1)) (.slot 3 "AGAIN" 9) =
        .error (.duplicateId 3 "AGAIN" "ZERO") ∧
      Registration.perform (registerAll {} (sampleCalls.take 2)) (.slot 255 "OUTSIDE" 1) =
        .error (.invalidId "OUTSIDE" "255") ∧
      (registerAll {} sampleCalls).name? 3 = some "ZERO" ∧
      (registerAll {} sampleCalls).code 255 = 0 ∧
      (registerAll {} sampleCalls).count = 2 := by
  obtain ⟨hcalls, hfound, hnone, -, -, hcount, -⟩ := registerAll_writeOnce sampleCalls
  obtain ⟨-, -, hagain, -⟩ := hcalls (sampleCalls.take 1) (.slot 3 "AGAIN" 9) _ rfl
  obtain ⟨-, houtside, -⟩ := hcalls (sampleCalls.take 2) (.slot 255 "OUTSIDE" 1) _ rfl
  obtain ⟨hname, -⟩ := hfound 3 (by decide) (.slot 3 "ZERO" 0) rfl
  obtain ⟨-, hcode, -⟩ := hnone 255 (.inl (by decide))
  refine ⟨hagain (by decide) (.slot 3 "ZERO" 0) rfl, houtside (by decide), hname, hcode, ?_⟩
  rw [hcount]
  decide

end Table

end Dialect.Schema

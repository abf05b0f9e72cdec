import Dialect.Proofs.Schema.Removal
import Dialect.Run.Selection

/-!
# What a selection keeps

A message is kept unless its file or its id is taken (`Selection.refusal?`), and one that is not
kept leaves a fault and nothing else: the messages behind it are chosen as they would be without it
(`select_cons_alike`).
-/

namespace Dialect.Run

open Dialect.Schema (Fault Message Slot Table)

namespace Selection

variable {s s' : Selection} {m : Message} {fault : Fault}

/-- Why a message is not kept, if it is not. -/
def refusal? (s : Selection) (m : Message) : Option Fault :=
  match s.kept.lookup (listingFile m) with
  | some existing => some (.artifactCollision m.name existing.name (listingFile m))
  | none =>
    match s.table.registerMessage m with
    | .ok _ => none
    | .error fault => some fault

/-- A message is kept exactly if its file is free and its id is one of the table and free. -/
theorem refusal?_eq_none_iff :
    s.refusal? m = none ↔
      s.kept.lookup (listingFile m) = none ∧ m.id ≤ Schema.maxId ∧ s.table.slot? m.id = none := by
  rw [refusal?]
  cases s.kept.lookup (listingFile m) with
  | some existing => simp
  | none =>
    rcases htable : s.table.registerMessage m with fault | table
    · have hnot : ¬ (m.id ≤ Schema.maxId ∧ s.table.slot? m.id = none) := by
        rintro ⟨hid, hfree⟩
        rw [Table.registerMessage_eq_ok_iff.mpr ⟨hid, hfree, rfl⟩] at htable
        exact absurd htable (by simp)
      simp [hnot]
    · obtain ⟨hid, hfree, -⟩ := Table.registerMessage_eq_ok_iff.mp htable
      simp [hid, hfree]

/-- A message that is refused leaves its fault and nothing else. -/
theorem add_of_refused (h : s.refusal? m = some fault) :
    s.add m = { s with faults := s.faults ++ [fault] } := by
  rw [refusal?] at h
  rw [add]
  cases hfile : s.kept.lookup (listingFile m) with
  | some existing =>
    rw [hfile] at h
    rw [← Option.some.inj h]
  | none =>
    rw [hfile] at h
    cases htable : s.table.registerMessage m with
    | ok table =>
      rw [htable] at h
      exact absurd h (by simp)
    | error fault' =>
      rw [htable] at h
      rw [← Option.some.inj h]

/-- A message that is not refused takes its file and its id. -/
theorem add_of_kept (h : s.refusal? m = none) :
    s.add m =
      { s with kept := s.kept ++ [(listingFile m, m)], table := ⟨s.table.slots ++ [m.slot]⟩ } := by
  obtain ⟨hfile, hid, hfree⟩ := refusal?_eq_none_iff.mp h
  have htable : s.table.registerMessage m = .ok ⟨s.table.slots ++ [m.slot]⟩ :=
    Table.registerMessage_eq_ok_iff.mpr ⟨hid, hfree, rfl⟩
  simp only [add, hfile, htable]

/-! ## Selections that differ in their faults -/

/-- The same messages are kept, and the same ids are taken. -/
def Alike (s s' : Selection) : Prop := s.kept = s'.kept ∧ s.table = s'.table

/-- Choices that are alike refuse the same messages. -/
theorem Alike.refusal?_eq (h : s.Alike s') : s.refusal? m = s'.refusal? m := by
  rw [refusal?, refusal?, h.1, h.2]

/-- Choices that are alike stay so with one more message. -/
theorem Alike.add (h : s.Alike s') : (s.add m).Alike (s'.add m) := by
  have hsame := h.refusal?_eq (m := m)
  cases hrefusal : s.refusal? m with
  | none =>
    rw [add_of_kept hrefusal, add_of_kept (hsame.symm.trans hrefusal), h.1, h.2]
    exact ⟨rfl, rfl⟩
  | some fault =>
    rw [add_of_refused hrefusal, add_of_refused (hsame.symm.trans hrefusal)]
    exact h

/-- Choices that are alike stay so with more messages. -/
theorem Alike.foldl (h : s.Alike s') (messages : List Message) :
    (messages.foldl Selection.add s).Alike (messages.foldl Selection.add s') := by
  induction messages generalizing s s' with
  | nil => exact h
  | cons m rest ih => exact ih h.add

/-! ## What stays -/

/-- Whatever has been kept stays. -/
theorem mem_kept_foldl {k : String × Message} (h : k ∈ s.kept) (messages : List Message) :
    k ∈ (messages.foldl Selection.add s).kept := by
  induction messages generalizing s with
  | nil => exact h
  | cons m rest ih =>
    refine ih ?_
    cases hrefusal : s.refusal? m with
    | none =>
      rw [add_of_kept hrefusal]
      exact List.mem_append_left _ h
    | some fault =>
      rw [add_of_refused hrefusal]
      exact h

/-- Whatever is kept is one of the messages, in its file. -/
theorem mem_of_mem_kept_foldl {k : String × Message} {messages : List Message}
    (h : k ∈ (messages.foldl Selection.add s).kept) :
    k ∈ s.kept ∨ k.2 ∈ messages ∧ k.1 = listingFile k.2 := by
  induction messages generalizing s with
  | nil => exact .inl h
  | cons m rest ih =>
    rcases ih h with hk | ⟨hmem, hfile⟩
    · cases hrefusal : s.refusal? m with
      | none =>
        rw [add_of_kept hrefusal] at hk
        rcases List.mem_append.mp hk with hk | hk
        · exact .inl hk
        · obtain rfl := List.mem_singleton.mp hk
          exact .inr ⟨List.mem_cons_self, rfl⟩
      | some fault =>
        rw [add_of_refused hrefusal] at hk
        exact .inl hk
    · exact .inr ⟨List.mem_cons_of_mem m hmem, hfile⟩

/-- No two messages that are kept share a file. -/
theorem nodup_files_foldl (h : (s.kept.map (·.1)).Nodup) (messages : List Message) :
    ((messages.foldl Selection.add s).kept.map (·.1)).Nodup := by
  induction messages generalizing s with
  | nil => exact h
  | cons m rest ih =>
    refine ih ?_
    cases hrefusal : s.refusal? m with
    | none =>
      -- a message whose file another one has would have been refused
      have hfree : listingFile m ∉ s.kept.map (·.1) := by
        intro hmem
        obtain ⟨k, hk, hfile⟩ := List.mem_map.mp hmem
        have hnone := List.lookup_eq_none_iff.mp (refusal?_eq_none_iff.mp hrefusal).1 k hk
        exact absurd hfile.symm (by simpa using hnone)
      rw [add_of_kept hrefusal, List.map_append, List.map_singleton, List.nodup_append]
      refine ⟨h, List.pairwise_singleton _ _, fun file hfile file' hfile' => ?_⟩
      rw [List.mem_singleton.mp hfile']
      rintro rfl
      exact hfree hfile
    | some fault => rwa [add_of_refused hrefusal]

/-- The faults left so far stay. -/
theorem mem_faults_foldl (h : fault ∈ s.faults) (messages : List Message) :
    fault ∈ (messages.foldl Selection.add s).faults := by
  induction messages generalizing s with
  | nil => exact h
  | cons m rest ih =>
    refine ih ?_
    cases hrefusal : s.refusal? m with
    | none => rwa [add_of_kept hrefusal]
    | some fault' =>
      rw [add_of_refused hrefusal]
      exact List.mem_append_left _ h

/-- Every message is kept or leaves a fault. -/
theorem length_foldl (s : Selection) (messages : List Message) :
    (messages.foldl Selection.add s).kept.length + (messages.foldl Selection.add s).faults.length =
      s.kept.length + s.faults.length + messages.length := by
  induction messages generalizing s with
  | nil => rfl
  | cons m rest ih =>
    rw [List.foldl_cons, ih, List.length_cons]
    cases hrefusal : s.refusal? m with
    | none =>
      simp only [add_of_kept hrefusal, List.length_append, List.length_singleton]
      omega
    | some fault =>
      simp only [add_of_refused hrefusal, List.length_append, List.length_singleton]
      omega

/-- If no fault is left, all messages are kept. -/
theorem kept_foldl_of_faults_eq_nil {messages : List Message}
    (h : (messages.foldl Selection.add s).faults = []) :
    (messages.foldl Selection.add s).kept.map (·.2) = s.kept.map (·.2) ++ messages := by
  induction messages generalizing s with
  | nil => exact (List.append_nil _).symm
  | cons m rest ih =>
    rw [List.foldl_cons, ih h]
    cases hrefusal : s.refusal? m with
    | none =>
      rw [add_of_kept hrefusal, List.map_append, List.append_assoc]
      rfl
    | some fault =>
      -- a fault stays, so there would be one at the end
      have hfault : fault ∈ (s.add m).faults := by
        rw [add_of_refused hrefusal]
        exact List.mem_append_right _ (List.mem_singleton_self fault)
      have hstays := mem_faults_foldl hfault rest
      rw [List.foldl_cons] at h
      rw [h] at hstays
      exact absurd hstays List.not_mem_nil

/-- The slots that are filled are those of the messages that are kept, in the same order, behind
those that were filled before; and no id has two. -/
structure Fills (s : Selection) (table : Table) : Prop where
  slots_eq : s.table.slots = table.slots ++ s.kept.map (·.2.slot)
  lawful : s.table.Lawful

/-- All that is chosen fills the table, message by message. -/
theorem Fills.foldl {table : Table} (h : s.Fills table) (messages : List Message) :
    (messages.foldl Selection.add s).Fills table := by
  induction messages generalizing s with
  | nil => exact h
  | cons m rest ih =>
    refine ih ?_
    cases hrefusal : s.refusal? m with
    | none =>
      obtain ⟨-, hid, hfree⟩ := refusal?_eq_none_iff.mp hrefusal
      rw [add_of_kept hrefusal]
      constructor
      · simp only [h.slots_eq, List.map_append, List.map_singleton, List.append_assoc]
      · exact h.lawful.of_register (Table.registerMessage_eq_ok_iff.mpr ⟨hid, hfree, rfl⟩)
    | some fault =>
      rw [add_of_refused hrefusal]
      exact ⟨h.slots_eq, h.lawful⟩

/-- An id that is free has always been free. -/
theorem slot?_eq_none_of_foldl {id : UInt8} {messages : List Message}
    (h : (messages.foldl Selection.add s).table.slot? id = none) : s.table.slot? id = none := by
  induction messages generalizing s with
  | nil => exact h
  | cons m rest ih =>
    have hadd := ih h
    cases hrefusal : s.refusal? m with
    | none =>
      rw [add_of_kept hrefusal, Table.slot?, List.find?_append, Option.or_eq_none_iff] at hadd
      exact hadd.1
    | some fault =>
      rwa [add_of_refused hrefusal] at hadd

/-- A message is refused for its file, or its id is not one of the table or taken. -/
theorem eq_artifactCollision_of_refused (h : s.refusal? m = some fault)
    (hid : m.id ≤ Schema.maxId) (hfree : s.table.slot? m.id = none) :
    ∃ existing, fault = .artifactCollision m.name existing (listingFile m) := by
  cases hfile : s.kept.lookup (listingFile m) with
  | none =>
    rw [refusal?_eq_none_iff.mpr ⟨hfile, hid, hfree⟩] at h
    exact absurd h (by simp)
  | some existing =>
    rw [refusal?, hfile] at h
    exact ⟨existing.name, (Option.some.inj h).symm⟩

end Selection

variable {table : Table} {front back : List Message} {m : Message}

/-- Every message that is kept has a file of its own. -/
theorem files_select (table : Table) (messages : List Message) :
    (∀ k ∈ (select table messages).kept, k.1 = listingFile k.2) ∧
      ((select table messages).kept.map (·.1)).Nodup := by
  constructor
  · intro k hk
    rcases Selection.mem_of_mem_kept_foldl hk with hnone | ⟨-, hfile⟩
    · exact absurd hnone List.not_mem_nil
    · exact hfile
  · exact Selection.nodup_files_foldl (by simp) messages

/-- Every message of a document is kept or leaves a fault. -/
theorem length_select (table : Table) (messages : List Message) :
    (select table messages).kept.length + (select table messages).faults.length =
      messages.length := by
  rw [select, Selection.length_foldl]
  exact Nat.zero_add _

/-- A selection fills the slots of the messages that it keeps. -/
theorem fills_select (h : table.Lawful) (messages : List Message) :
    (select table messages).Fills table :=
  Selection.Fills.foldl ⟨(List.append_nil _).symm, h⟩ messages

/-- A choice goes on behind the first messages with those that follow. -/
theorem select_append :
    select table (front ++ back) = back.foldl Selection.add (select table front) :=
  List.foldl_append

/-- What is kept of some messages does not depend on one among them that is refused. -/
theorem select_cons_alike {fault : Fault} (back : List Message)
    (h : (select table front).refusal? m = some fault) :
    (select table (front ++ m :: back)).Alike (select table (front ++ back)) := by
  rw [select_append, select_append, List.foldl_cons]
  have halike : ((select table front).add m).Alike (select table front) := by
    rw [Selection.add_of_refused h]
    exact ⟨rfl, rfl⟩
  exact halike.foldl back

end Dialect.Run

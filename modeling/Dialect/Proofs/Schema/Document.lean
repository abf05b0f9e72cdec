import Dialect.Proofs.Schema.Definition
import Dialect.Proofs.Schema.Table
import Dialect.Schema.Document
import Mathlib.Algebra.BigOperators.Group.List.Basic
import Mathlib.Algebra.GroupWithZero.Nat

/-!
# What every document keeps

A document is compiled by taking in its messages one after the other. Taking one in either appends
it to the messages and fills its slot, or leaves a fault and nothing else (`Intake.add_cases`). So
at every moment the table holds the messages accepted so far and nothing more (`Intake.Consistent`),
and each of them is what an element of the document defines.
-/

namespace Dialect.Schema

open Dialect.Markup (Element)

/-- The slot that a message fills. -/
def Message.slot (m : Message) : Slot := ⟨m.id, m.name, m.code⟩

/-- There is room for a message exactly if its id is admitted and free. -/
theorem Table.registerMessage_eq_ok_iff {t t' : Table} {m : Message} :
    t.registerMessage m = .ok t' ↔
      m.id ≤ maxId ∧ t.slot? m.id = none ∧ t' = ⟨t.slots ++ [m.slot]⟩ :=
  register_eq_ok_iff

namespace Document

/-! ## Taking messages in -/

/-- A message is taken in if it is well-formed and there is room for it; if not, the fault says
which of the two is missing. -/
theorem Intake.add_cases (acc : Intake) (result : Except Fault Message) :
    (∃ m table, result = .ok m ∧ acc.table.registerMessage m = .ok table ∧
        acc.add result = { acc with messages := acc.messages ++ [m], table := table }) ∨
      (∃ m fault, result = .ok m ∧ acc.table.registerMessage m = .error fault ∧
        acc.add result = { acc with faults := acc.faults ++ [fault] }) ∨
      ∃ fault, result = .error fault ∧
        acc.add result = { acc with faults := acc.faults ++ [fault] } := by
  rcases result with fault | m
  · exact .inr (.inr ⟨fault, rfl, rfl⟩)
  · rcases htable : acc.table.registerMessage m with fault | table
    · refine .inr (.inl ⟨m, fault, rfl, htable, ?_⟩)
      simp only [add, bind, Except.bind, htable]
    · refine .inl ⟨m, table, rfl, htable, ?_⟩
      simp only [add, bind, Except.bind, htable, pure, Except.pure]

/-- The filled slots are those of the messages taken in, in the same order. -/
structure Intake.Consistent (acc : Intake) : Prop where
  slots_eq : acc.table.slots = acc.messages.map Message.slot
  lawful : acc.table.Lawful

/-- One more result leaves an intake consistent. -/
theorem Intake.Consistent.add {acc : Intake} (h : acc.Consistent) (result : Except Fault Message) :
    (acc.add result).Consistent := by
  rcases acc.add_cases result with
    ⟨m, table, -, htable, hadd⟩ | ⟨m, fault, -, -, hadd⟩ | ⟨fault, -, hadd⟩ <;> rw [hadd]
  · refine ⟨?_, h.lawful.of_register htable⟩
    obtain ⟨-, -, rfl⟩ := Table.register_eq_ok_iff.mp htable
    show acc.table.slots ++ [m.slot] = (acc.messages ++ [m]).map Message.slot
    rw [h.slots_eq, List.map_append, List.map_singleton]
  · exact ⟨h.slots_eq, h.lawful⟩
  · exact ⟨h.slots_eq, h.lawful⟩

/-- More results leave an intake consistent. -/
theorem Intake.Consistent.foldl {acc : Intake} (h : acc.Consistent)
    (results : List (Except Fault Message)) : (results.foldl Intake.add acc).Consistent := by
  induction results generalizing acc with
  | nil => exact h
  | cons result rest ih => exact ih (h.add result)

/-- Every message taken in was among the results. -/
theorem Intake.mem_messages_foldl {results : List (Except Fault Message)} {acc : Intake}
    {m : Message} (hm : m ∈ (results.foldl Intake.add acc).messages) :
    m ∈ acc.messages ∨ .ok m ∈ results := by
  induction results generalizing acc with
  | nil => exact .inl hm
  | cons result rest ih =>
    rcases ih hm with hm | hm
    · rcases acc.add_cases result with
        ⟨m', table, rfl, -, hadd⟩ | ⟨m', fault, -, -, hadd⟩ | ⟨fault, -, hadd⟩ <;> rw [hadd] at hm
      · rcases List.mem_append.mp hm with hm | hm
        · exact .inl hm
        · obtain rfl := List.mem_singleton.mp hm
          exact .inr List.mem_cons_self
      · exact .inl hm
      · exact .inl hm
    · exact .inr (List.mem_cons_of_mem result hm)

/-! ## Documents -/

variable (name : String) (root : Element) (workers : Nat)

/-- The results of a document's messages, taken in one after the other. -/
def intake : Intake := ((messageElements root).map Message.ofElement).foldl Intake.add {}

/-- The messages of a document are those that were taken in. -/
theorem messages_ofElement : (ofElement name root workers).messages = (intake root).messages := by
  rw [ofElement, Work.fanOut_eq_map]
  rfl

/-- The table of a document is that of its intake. -/
theorem table_ofElement : (ofElement name root workers).table = (intake root).table := by
  rw [ofElement, Work.fanOut_eq_map]
  rfl

/-- The intake of a document is consistent. -/
theorem consistent_intake : (intake root).Consistent :=
  Intake.Consistent.foldl ⟨rfl, Table.lawful_empty⟩ _

/-- Every message that was taken in is defined by an element of the document. -/
theorem exists_ofElement_of_mem_intake {m : Message} (hm : m ∈ (intake root).messages) :
    ∃ e ∈ messageElements root, Message.ofElement e = .ok m := by
  rcases Intake.mem_messages_foldl hm with hm | hm
  · exact absurd hm (by simp)
  · exact List.mem_map.mp hm

/-- **What every document keeps.** Every source that can be read is a document, whatever it is
called and however many workers compile it. The id of each of its messages is one of the table; the
fields have the lower-case forms of their schema names for names, all of them distinct, and from 1
to 255 elements each; they stand in the order of their alignment classes; the payload is as long as
they are together; and the code is the folded checksum of the layout. No two messages have the same
id, and the slots that are filled are those of the messages and no others. -/
theorem ofSource_invariants (name source : String) (workers : Nat) (root : Element)
    (h : Markup.parse source = .ok root) :
    ∃ d, ofSource name source workers = .ok d ∧
      (∀ m ∈ d.messages, m.id ≤ 254 ∧
        (m.fields.map fun f => Text.lower f.schemaName).Nodup ∧
        (∀ f ∈ m.fields, f.name = Text.lower f.schemaName ∧ 1 ≤ f.arity ∧ f.arity ≤ 255) ∧
        m.fields.Pairwise (fun f g => f.rank ≤ g.rank) ∧
        m.payloadLength = (m.fields.map fun f => f.type.width * f.arity.toNat).sum ∧
        m.code = Checksum.fold (Checksum.accumulate 0xFFFF (layoutBytes m.name m.fields))) ∧
      (d.messages.map Message.id).Nodup ∧
      d.table.entries.Perm (d.messages.map fun m => ⟨m.id, m.name, m.code⟩) ∧
      ∀ id slot, d.table.slot? id = some slot ↔
        ∃ m ∈ d.messages, id = m.id ∧ slot = ⟨m.id, m.name, m.code⟩ := by
  refine ⟨ofElement name root workers, by rw [ofSource, h]; rfl, ?_⟩
  -- all but the layout follows from the table, whose slots are those of the messages
  obtain ⟨hslots, hlawful⟩ := consistent_intake root
  rw [messages_ofElement, table_ofElement]
  refine ⟨fun m hm => ?_, ?_, ?_, fun id slot => ?_⟩
  · obtain ⟨e, -, he⟩ := exists_ofElement_of_mem_intake root hm
    have hid : m.slot.id ≤ maxId := hlawful.id_le m.slot (hslots ▸ List.mem_map_of_mem hm)
    -- each message was compiled from an element, with the fields that it declares in wire order
    obtain ⟨declared, -, hlayout⟩ := Message.exists_layOut_of_ofElement he
    have hfield : ∀ f ∈ m.fields, f.name = Text.lower f.schemaName ∧ f.arity ≠ 0 := by
      intro f hf
      obtain ⟨child, -, hchild⟩ := Message.exists_ofElement_of_mem_fields he hf
      obtain ⟨_, _, _, -, -, -, rfl⟩ := Field.exists_declare_of_ofElement hchild
      exact ⟨rfl, Message.arity_ne_zero_of_ofElement he _ hf⟩
    have hnames : m.fields.map (fun f => Text.lower f.schemaName) = m.fields.map Field.name :=
      List.map_congr_left fun f hf => (hfield f hf).1.symm
    have hsorted : m.fields = wireOrder declared :=
      congrArg Message.fields (Message.layOut_eq_ok_iff.mp hlayout).2
    refine ⟨hid, ?_, ?_, ?_, m.payloadLength_eq_sum, rfl⟩
    · rw [hnames]
      exact Message.nodup_names_of_layOut hlayout
    · intro f hf
      obtain ⟨hname, hne⟩ := hfield f hf
      have hpos : f.arity.toNat ≠ 0 := fun hzero => hne (UInt8.toNat_inj.mp hzero)
      have hlt := f.arity.toNat_lt
      -- an arity is a byte, so only that it is not zero has to be known
      refine ⟨hname, UInt8.le_iff_toNat_le.mpr ?_, UInt8.le_iff_toNat_le.mpr ?_⟩
      · show 1 ≤ f.arity.toNat
        omega
      · show f.arity.toNat ≤ 255
        omega
    · rw [hsorted]
      exact pairwise_wireOrder declared
  · have hnodup := hlawful.nodup
    rw [hslots, List.map_map] at hnodup
    exact hnodup
  · have hperm := hlawful.entries_perm
    rw [hslots] at hperm
    exact hperm
  · rw [hlawful.slot?_eq_some_iff, hslots, List.mem_map]
    constructor
    · rintro ⟨⟨m, hm, rfl⟩, rfl⟩
      exact ⟨m, hm, rfl, rfl⟩
    · rintro ⟨m, hm, rfl, rfl⟩
      exact ⟨⟨m, hm, rfl⟩, rfl⟩

/-- A document with a message of two fields, declared in another order than that of the wire, and
one that comes too late for its id. -/
def pairSource : String :=
  "<d><messages><message id='7' name='Pair'><field name='B' type='char[2]'/>" ++
    "<field name='a' type='int16_t'/></message><message id='7' name='Late'/></messages></d>"

/-- The message that is accepted. -/
def pairMessage : Message :=
  ⟨7, "Pair", none, [⟨"a", "a", .plain .int16, 1, ""⟩, ⟨"b", "B", .plain .char, 2, ""⟩]⟩

/-- A document with one message of two fields, compiled by two workers. -/
theorem ofSource_invariants_sample :
    ∃ root d, Markup.parse pairSource = .ok root ∧ ofSource "pair" pairSource 2 = .ok d ∧
      d.messages = [pairMessage] ∧ pairMessage.id ≤ 254 ∧
      (pairMessage.fields.map fun f => Text.lower f.schemaName).Nodup ∧
      pairMessage.fields.Pairwise (fun f g => f.rank ≤ g.rank) ∧
      pairMessage.payloadLength = 4 ∧
      pairMessage.code = Checksum.fold
        (Checksum.accumulate 0xFFFF (layoutBytes "Pair" pairMessage.fields)) ∧
      d.table.entries.Perm [⟨7, "Pair", pairMessage.code⟩] := by
  have hread : (ofSource "pair" pairSource 2).toOption.map (·.messages) = some [pairMessage] := by
    decide +kernel
  rcases hroot : Markup.parse pairSource with fault | root
  · rw [ofSource, hroot] at hread
    exact absurd hread (by simp [bind, Except.bind, Except.toOption])
  · obtain ⟨d, hsource, hall, -, hentries, -⟩ :=
      ofSource_invariants "pair" pairSource 2 root hroot
    rw [hsource] at hread
    have hsame : d.messages = [pairMessage] := Option.some.inj hread
    rw [hsame] at hall hentries
    obtain ⟨hid, hnames, -, hranks, hlength, hcode⟩ := hall pairMessage List.mem_cons_self
    exact ⟨root, d, rfl, hsource, hsame, hid, hnames, hranks, hlength, hcode, hentries⟩

end Document

end Dialect.Schema

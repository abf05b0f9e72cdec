import Dialect.Payload.Codec
import Dialect.Proofs.Schema.Document
import Mathlib.Data.List.Basic

/-!
# Looking messages up

A codec answers with the first message that has a name or an id. It may look for it from the front,
or keep for each key the place at which it stands first (`placesBy`), which is noted once and never
again; both find the same (`getElem?_placesBy`). The table of a document has been filled by another
loop, which refuses what comes second. It has a slot for just those ids that the codec of the
document knows, and in it what the codec finds (`lookup_agrees`).
-/

namespace Dialect.Schema.Document

/-- A slot is filled by the first message with its id. -/
theorem Intake.Consistent.slot?_eq {acc : Intake} (h : acc.Consistent) (id : UInt8) :
    acc.table.slot? id = (acc.messages.find? (·.id == id)).map Message.slot := by
  unfold Table.slot?
  rw [h.slots_eq, List.find?_map]
  rfl

end Dialect.Schema.Document

namespace Dialect.Payload.Codec

open Dialect.Markup (Element)
open Dialect.Schema (Document Message)

/-! ## Places by key -/

section Places

variable {κ : Type} [BEq κ] {key : Message → κ} {k : κ}

/-- What is found is what stands first. -/
theorem find?_eq_some_iff_first [LawfulBEq κ] {messages : List Message} {m : Message} :
    messages.find? (key · == k) = some m ↔
      ∃ front back, messages = front ++ m :: back ∧ key m = k ∧ ∀ m' ∈ front, key m' ≠ k := by
  rw [List.find?_eq_some_iff_append]
  constructor
  · rintro ⟨hkey, front, back, hsplit, hfront⟩
    exact ⟨front, back, hsplit, by simpa using hkey, fun m' hm' => by simpa using hfront m' hm'⟩
  · rintro ⟨front, back, hsplit, hkey, hfront⟩
    exact ⟨by simpa using hkey, front, back, hsplit, fun m' hm' => by simpa using hfront m' hm'⟩

variable [Hashable κ]

/-- Notes the place of a message under its key, unless a place stands there. -/
def notePlace (key : Message → κ) (places : Std.HashMap κ Nat) (m : Message × Nat) :
    Std.HashMap κ Nat :=
  places.insertIfNew (key m.1) m.2

/-- The places of messages by their keys, noted one after the other. -/
def placesBy (key : Message → κ) (messages : List Message) : Std.HashMap κ Nat :=
  messages.zipIdx.foldl (notePlace key) ∅

variable [LawfulBEq κ]

/-- A key that has a place keeps it. -/
theorem getElem?_notePlace {places : Std.HashMap κ Nat} {m : Message} {i : Nat} :
    (notePlace key places (m, i))[k]? = places[k]?.or (if key m == k then some i else none) := by
  unfold notePlace
  rw [Std.HashMap.getElem?_insertIfNew]
  by_cases hkey : key m = k
  · subst hkey
    by_cases hknown : key m ∈ places
    · simp [hknown]
    · simp [hknown]
  · simp [hkey]

/-- Messages that are noted from place `n` on leave, for a key without a place, that of the first
which has the key. -/
theorem getElem?_foldl_notePlace (messages : List Message) {places : Std.HashMap κ Nat} {n : Nat} :
    ((messages.zipIdx n).foldl (notePlace key) places)[k]? =
      places[k]?.or ((messages.findIdx? (key · == k)).map (· + n)) := by
  -- the rest is noted behind the first message, so its own first place counts from there
  induction messages generalizing places n with
  | nil => simp
  | cons m rest ih =>
    rw [List.zipIdx_cons, List.foldl_cons, ih, getElem?_notePlace, Option.or_assoc,
      List.findIdx?_cons]
    congr 1
    by_cases hkey : key m = k
    · simp [hkey]
    · have hshift : ∀ i, i + (n + 1) = i + 1 + n := fun i => by omega
      simp [hkey, hshift, Function.comp_def]

/-- By its place, a key finds the first message that has it. -/
theorem find?_eq_placesBy (messages : List Message) :
    messages.find? (key · == k) = (placesBy key messages)[k]?.bind (messages[·]?) := by
  have hplace : (placesBy key messages)[k]? = messages.findIdx? (key · == k) := by
    unfold placesBy
    rw [getElem?_foldl_notePlace]
    simp
  rw [hplace]
  exact List.find?_eq_bind_findIdx?_getElem?

end Places

/-! ## The codec of a document -/

/-- The table of a document has in each slot the message that its codec finds under the id. -/
theorem slot?_ofElement (name : String) (root : Element) (workers : Nat) (order : ByteOrder)
    (id : UInt8) :
    (Document.ofElement name root workers).table.slot? id =
      ((Codec.mk order (Document.ofElement name root workers).messages).messageById? id).map
        Message.slot := by
  rw [Document.table_ofElement, Document.messages_ofElement]
  exact (Document.consistent_intake root).slot?_eq id

/-- **Two parties that go by one document agree.** For every id, the codec of a document finds a
message exactly if the slot of the table is filled; this message has the id, and the table has its
name and its code. By a name, the codec finds the message that stands first among those with this
name, and none exactly if no message has it. It finds the same if it has noted, once and for all, at
which place each id and each name stands first. -/
theorem lookup_agrees (name : String) (root : Element) (workers : Nat) (order : ByteOrder) :
    let d := Document.ofElement name root workers
    let c := Codec.mk order d.messages
    (∀ id, ((∃ m, c.messageById? id = some m) ↔ d.table.isSet id) ∧
      ∀ m, c.messageById? id = some m →
        m.id = id ∧ d.table.name? id = some m.name ∧ d.table.code id = m.code) ∧
    (∀ s, (∀ m, c.message? s = some m ↔ ∃ front back, d.messages = front ++ m :: back ∧
        m.name = s ∧ ∀ m' ∈ front, m'.name ≠ s) ∧
      (c.message? s = none ↔ ∀ m ∈ d.messages, m.name ≠ s)) ∧
    (∀ id, c.messageById? id = (placesBy Message.id d.messages)[id]?.bind (d.messages[·]?)) ∧
    ∀ s, c.message? s = (placesBy Message.name d.messages)[s]?.bind (d.messages[·]?) := by
  intro d c
  have hslot : ∀ id, d.table.slot? id = (c.messageById? id).map Message.slot :=
    slot?_ofElement name root workers order
  refine ⟨fun id => ⟨?_, fun m hm => ?_⟩, fun s => ⟨fun m => find?_eq_some_iff_first, ?_⟩,
    fun id => find?_eq_placesBy d.messages, fun s => find?_eq_placesBy d.messages⟩
  · unfold Schema.Table.isSet
    rw [hslot, Option.isSome_map, Option.isSome_iff_exists]
  · have hid : m.id = id := (find?_eq_some_iff_first.mp hm).choose_spec.choose_spec.2.1
    unfold Schema.Table.name? Schema.Table.code
    rw [hslot, hm]
    exact ⟨hid, rfl, rfl⟩
  · unfold message?
    rw [List.find?_eq_none]
    simp only [beq_iff_eq]
    rfl

/-- Two messages of one name, and between them one that comes too late for its id. -/
def twinRoot : Element :=
  let message (id name : String) : Element :=
    ⟨"message", [("name", name), ("id", id)], [], "", 2⟩
  ⟨"d", [], [⟨"messages", [], [message "3" "A", message "3" "B", message "200" "A"], "", 1⟩], "", 1⟩

/-- The document with this root. -/
def twinDocument : Document := .ofElement "d" twinRoot 2

/-- A name that two messages have, an id that no message has, and one that came too late. -/
theorem lookup_agrees_sample :
    twinDocument.messages = [⟨3, "A", none, []⟩, ⟨200, "A", none, []⟩] ∧
      (Codec.mk .big twinDocument.messages).messageById? 200 = some ⟨200, "A", none, []⟩ ∧
      twinDocument.table.name? 200 = some "A" ∧
      twinDocument.table.code 200 = (Message.mk 200 "A" none []).code ∧
      ¬ twinDocument.table.isSet 255 ∧
      (Codec.mk .big twinDocument.messages).message? "A" = some ⟨3, "A", none, []⟩ ∧
      (placesBy Message.name twinDocument.messages)["A"]?.bind (twinDocument.messages[·]?) =
        some ⟨3, "A", none, []⟩ ∧
      (Codec.mk .big twinDocument.messages).message? "B" = none := by
  obtain ⟨hids, hnames, -, hplaces⟩ := lookup_agrees "d" twinRoot 2 .big
  have hmessages : twinDocument.messages = [⟨3, "A", none, []⟩, ⟨200, "A", none, []⟩] := by
    decide +kernel
  have hlast : (Codec.mk .big twinDocument.messages).messageById? 200 =
      some ⟨200, "A", none, []⟩ := by
    rw [hmessages]
    rfl
  have hfirst : (Codec.mk .big twinDocument.messages).message? "A" = some ⟨3, "A", none, []⟩ :=
    ((hnames "A").1 _).mpr ⟨[], [⟨200, "A", none, []⟩], hmessages, rfl, by simp⟩
  obtain ⟨-, hname, hcode⟩ := (hids 200).2 _ hlast
  refine ⟨hmessages, hlast, hname, hcode, fun hset => ?_, hfirst, ?_, ?_⟩
  · obtain ⟨m, hm⟩ := (hids 255).1.mpr hset
    have hnone : (Codec.mk .big twinDocument.messages).messageById? 255 = none := by
      rw [hmessages]
      rfl
    exact absurd (hnone.symm.trans hm) (by simp)
  · exact (hplaces "A").symm.trans hfirst
  · refine (hnames "B").2.mpr ?_
    show ∀ m ∈ twinDocument.messages, m.name ≠ "B"
    rw [hmessages]
    simp

end Dialect.Payload.Codec

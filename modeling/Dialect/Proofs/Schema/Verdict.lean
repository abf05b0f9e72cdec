import Dialect.Proofs.Markup.Place
import Dialect.Proofs.Schema.Document
import Mathlib.Data.List.Induction

/-!
# What becomes of each definition

Every result of compiling a message has a verdict (`verdict`), which depends on it and on the
results in front of it: a fault stands, and a message stands unless one in front of it has its id.
Taking the results in one after the other comes to sorting their verdicts (`foldl_add_eq`), so a
document is known from the verdicts on its elements. A result that is a fault holds no id.
-/

namespace Dialect.Schema

namespace Document

open Dialect.Markup (Element)

/-! ## Answers and faults -/

section Results

variable {α : Type} {results more : List (Except Fault α)}

@[simp]
theorem successes_append : successes (results ++ more) = successes results ++ successes more :=
  List.filterMap_append

@[simp]
theorem failures_append : failures (results ++ more) = failures results ++ failures more :=
  List.filterMap_append

/-- The answers among results are those that are there. -/
theorem mem_successes_iff {a : α} : a ∈ successes results ↔ .ok a ∈ results := by
  rw [successes, List.mem_filterMap]
  constructor
  · rintro ⟨_ | a', hresult, ha⟩
    · exact absurd ha (by simp)
    · rwa [← Option.some.inj ha]
  · intro h
    exact ⟨.ok a, h, rfl⟩

variable (results) in
/-- Every result is an answer or a fault. -/
theorem length_successes_add_length_failures :
    (successes results).length + (failures results).length = results.length := by
  induction results with
  | nil => rfl
  | cons result rest ih =>
    simp only [successes, failures] at ih
    cases result with
    | error fault =>
      simp only [successes, failures, List.filterMap_cons, List.length_cons]
      omega
    | ok a =>
      simp only [successes, failures, List.filterMap_cons, List.length_cons]
      omega

/-- Results without faults are answers. -/
theorem eq_map_ok_of_failures_eq_nil (h : failures results = []) :
    results = (successes results).map .ok := by
  induction results with
  | nil => rfl
  | cons result rest ih =>
    cases result with
    | error fault => exact absurd h (List.cons_ne_nil _ _)
    | ok a => exact congrArg (.ok a :: ·) (ih h)

end Results

/-! ## Verdicts -/

section Verdicts

variable {earlier results : List (Except Fault Message)} {id : UInt8}

/-- The first message among some results that has the given id. -/
def holder? (results : List (Except Fault Message)) (id : UInt8) : Option Message :=
  (successes results).find? (·.id == id)

/-- What a result comes to behind some others: a message is refused if one of them has its id. -/
def verdict (earlier : List (Except Fault Message)) : Except Fault Message → Except Fault Message
  | .error fault => .error fault
  | .ok m =>
    match holder? earlier m.id with
    | none => .ok m
    | some holder => .error (.duplicateId m.id m.name holder.name)

/-- What results come to that stand one behind the other, all of them behind `earlier`. -/
def verdictsBehind (earlier : List (Except Fault Message)) :
    List (Except Fault Message) → List (Except Fault Message)
  | [] => []
  | result :: rest => verdict earlier result :: verdictsBehind (earlier ++ [result]) rest

/-- An id is free if no message among the results has it. -/
theorem holder?_eq_none_iff :
    holder? results id = none ↔ ∀ m, .ok m ∈ results → m.id ≠ id := by
  simp [holder?, mem_successes_iff]

/-- The holder of an id is the first of the front results that has it, or else of those behind. -/
theorem holder?_append {more : List (Except Fault Message)} :
    holder? (results ++ more) id = (holder? results id).or (holder? more id) := by
  rw [holder?, successes_append, List.find?_append]
  rfl

/-- The holder of an id has this id. -/
theorem id_of_holder? {m : Message} (h : holder? results id = some m) : m.id = id := by
  simpa using List.find?_some h

/-- No result in front of the holder of an id has that id. -/
theorem exists_eq_append_of_holder? {m : Message} (h : holder? results id = some m) :
    ∃ front back, results = front ++ .ok m :: back ∧ holder? front id = none := by
  obtain ⟨-, before, after, hsplit, hbefore⟩ := List.find?_eq_some_iff_append.mp h
  obtain ⟨front, result, back, rfl, hfront, hresult⟩ := exists_of_filterMap_eq hsplit
  refine ⟨front, back, ?_, ?_⟩
  · cases result with
    | error fault => exact absurd hresult (by simp)
    | ok m' => rw [Option.some.inj hresult]
  · rw [holder?, show successes front = before from hfront]
    exact List.find?_eq_none.mpr fun a ha => by simpa using hbefore a ha

/-- A message stands exactly if no result in front of it has its id. -/
theorem verdict_eq_ok_iff {result : Except Fault Message} {m : Message} :
    verdict earlier result = .ok m ↔ result = .ok m ∧ holder? earlier m.id = none := by
  cases result with
  | error fault => simp [verdict]
  | ok m' =>
    rw [verdict]
    split
    · next hfree => exact ⟨by rintro ⟨⟩; exact ⟨rfl, hfree⟩, fun h => h.1⟩
    · next holder htaken =>
      refine ⟨nofun, ?_⟩
      rintro ⟨⟨⟩, hfree⟩
      rw [htaken] at hfree
      exact absurd hfree (by simp)

/-- A message whose id is held is refused with the name of the holder. -/
theorem verdict_of_holder? {m holder : Message} (h : holder? earlier m.id = some holder) :
    verdict earlier (.ok m) = .error (.duplicateId m.id m.name holder.name) := by
  rw [verdict, h]

/-- A refused result holds no id: every id has the holder that it has without it. -/
theorem holder?_append_of_verdict {result : Except Fault Message} {fault : Fault}
    (h : verdict earlier result = .error fault) :
    holder? (earlier ++ [result]) id = holder? earlier id := by
  rw [holder?_append]
  cases result with
  | error fault => exact Option.or_none
  | ok m =>
    rcases hholder : holder? earlier m.id with _ | holder
    · rw [verdict_eq_ok_iff.mpr ⟨rfl, hholder⟩] at h
      exact absurd h (by simp)
    · by_cases hid : m.id = id
      · rw [← hid, hholder]
        rfl
      · have hnone : holder? [.ok m] id = none := by simpa [holder?_eq_none_iff] using hid
        rw [hnone, Option.or_none]

/-- Verdicts on more results depend on the ones in front. -/
theorem verdictsBehind_append {more : List (Except Fault Message)} :
    verdictsBehind earlier (results ++ more) =
      verdictsBehind earlier results ++ verdictsBehind (earlier ++ results) more := by
  induction results generalizing earlier with
  | nil => rw [List.append_nil]; rfl
  | cons result rest ih =>
    rw [List.cons_append, verdictsBehind, ih, List.append_assoc]
    rfl

theorem verdictsBehind_singleton {result : Except Fault Message} :
    verdictsBehind earlier [result] = [verdict earlier result] :=
  rfl

@[simp]
theorem length_verdictsBehind : (verdictsBehind earlier results).length = results.length := by
  induction results generalizing earlier with
  | nil => rfl
  | cons result rest ih => rw [verdictsBehind, List.length_cons, ih, List.length_cons]

/-- If every verdict accepts a message, the results are these messages. -/
theorem eq_of_verdictsBehind_eq_map_ok {messages : List Message}
    (h : verdictsBehind earlier results = messages.map .ok) : results = messages.map .ok := by
  induction results generalizing earlier messages with
  | nil => exact h
  | cons result rest ih =>
    cases messages with
    | nil => exact absurd h (List.cons_ne_nil _ _)
    | cons m more =>
      obtain ⟨hverdict, hrest⟩ := List.cons.inj h
      rw [(verdict_eq_ok_iff.mp hverdict).1, ih hrest]
      rfl

/-- A verdict depends on what stands in front of it and on nothing behind it. -/
theorem getElem?_verdictsBehind {i : Nat} :
    (verdictsBehind earlier results)[i]? =
      results[i]?.map (verdict (earlier ++ results.take i)) := by
  induction results generalizing earlier i with
  | nil => rfl
  | cons result rest ih =>
    cases i with
    | zero => simp [verdictsBehind]
    | succ i =>
      rw [verdictsBehind, List.getElem?_cons_succ, ih, List.getElem?_cons_succ, List.take_succ_cons,
        List.append_assoc]
      rfl

/-- The messages that stand have the same ids as all messages, and the same one has each. -/
theorem find?_successes_verdictsBehind :
    (successes (verdictsBehind [] results)).find? (·.id == id) = holder? results id := by
  induction results using List.reverseRecOn with
  | nil => rfl
  | append_singleton results result ih =>
    rw [verdictsBehind_append, successes_append, List.find?_append, ih, holder?_append,
      List.nil_append, verdictsBehind_singleton]
    rcases hverdict : verdict results result with fault | m
    · rw [← holder?_append, holder?_append_of_verdict hverdict]
      exact Option.or_none
    · rw [(verdict_eq_ok_iff.mp hverdict).1]
      rfl

/-! ## Sorting verdicts -/

/-- What has been taken in when some verdicts have been passed. -/
def Intake.ofVerdicts (verdicts : List (Except Fault Message)) : Intake :=
  ⟨successes verdicts, ⟨(successes verdicts).map Message.slot⟩, failures verdicts⟩

theorem Intake.ofVerdicts_append_ok {verdicts : List (Except Fault Message)} {m : Message} :
    ofVerdicts (verdicts ++ [.ok m]) =
      { ofVerdicts verdicts with
        messages := (ofVerdicts verdicts).messages ++ [m]
        table := ⟨(ofVerdicts verdicts).table.slots ++ [m.slot]⟩ } := by
  simp [ofVerdicts, successes, failures]

theorem Intake.ofVerdicts_append_error {verdicts : List (Except Fault Message)} {fault : Fault} :
    ofVerdicts (verdicts ++ [.error fault]) =
      { ofVerdicts verdicts with faults := (ofVerdicts verdicts).faults ++ [fault] } := by
  simp [ofVerdicts, successes, failures]

/-- There is room for a message exactly if none in front of it has its id. -/
theorem registerMessage_ofVerdicts {m : Message} (hid : m.id ≤ maxId) :
    (Intake.ofVerdicts (verdictsBehind [] earlier)).table.registerMessage m =
      match holder? earlier m.id with
      | none => .ok ⟨(Intake.ofVerdicts (verdictsBehind [] earlier)).table.slots ++ [m.slot]⟩
      | some holder => .error (.duplicateId m.id m.name holder.name) := by
  have hslot : (Intake.ofVerdicts (verdictsBehind [] earlier)).table.slot? m.id =
      (holder? earlier m.id).map Message.slot := by
    rw [← find?_successes_verdictsBehind]
    exact List.find?_map
  rw [Table.registerMessage, Table.register, if_neg (UInt8.not_lt.mpr hid), hslot]
  cases holder? earlier m.id with
  | none => rfl
  | some holder => rfl

/-- Taking in a result adds its verdict. -/
theorem Intake.add_ofVerdicts {result : Except Fault Message}
    (hid : ∀ m, result = .ok m → m.id ≤ maxId) :
    (ofVerdicts (verdictsBehind [] earlier)).add result =
      ofVerdicts (verdictsBehind [] (earlier ++ [result])) := by
  rw [verdictsBehind_append, List.nil_append, verdictsBehind_singleton]
  -- the table is filled by the verdicts so far, so it refuses what they refuse
  rcases (ofVerdicts (verdictsBehind [] earlier)).add_cases result with
    ⟨m, table, rfl, htable, hadd⟩ | ⟨m, fault, rfl, hfault, hadd⟩ | ⟨fault, rfl, hadd⟩
  · rw [registerMessage_ofVerdicts (hid m rfl)] at htable
    rw [hadd, verdict]
    split at htable
    · obtain rfl := Except.ok.inj htable
      exact ofVerdicts_append_ok.symm
    · exact absurd htable (by simp)
  · rw [registerMessage_ofVerdicts (hid m rfl)] at hfault
    rw [hadd, verdict]
    split at hfault
    · exact absurd hfault (by simp)
    · obtain rfl := Except.error.inj hfault
      exact ofVerdicts_append_error.symm
  · rw [hadd]
    exact ofVerdicts_append_error.symm

/-- Taking results in one after the other comes to sorting their verdicts. -/
theorem foldl_add_eq (hid : ∀ m, .ok m ∈ results → m.id ≤ maxId) :
    results.foldl Intake.add {} = Intake.ofVerdicts (verdictsBehind [] results) := by
  induction results using List.reverseRecOn with
  | nil => rfl
  | append_singleton results result ih =>
    rw [List.foldl_append, ih fun m hm => hid m (List.mem_append_left _ hm)]
    exact Intake.add_ofVerdicts fun m hm => hid m (by simp [hm])

end Verdicts

/-! ## Documents -/

variable (name : String) (root : Element) (workers : Nat)

/-- An element is to define a message exactly if it stands in one of the blocks of messages. -/
theorem exists_inventory_messageElements :
    ∃ items, root.IsInventory "messages" "message" items ∧
      items.map (·.2) = messageElements root :=
  ⟨_, Element.isInventory_inventory, root.map_snd_inventory "messages" "message"⟩

/-- An element is to define an enumeration exactly if it stands in one of the blocks of those. -/
theorem exists_inventory_enumerationElements :
    ∃ entries, root.IsInventory "enums" "enum" entries ∧
      entries.map (·.2) = enumerationElements root :=
  ⟨_, Element.isInventory_inventory, root.map_snd_inventory "enums" "enum"⟩

/-- There are so many elements in the tree that are to define something, each counted at its
place. -/
def IsElementCount (count : Nat) : Prop :=
  ∃ items entries, root.IsInventory "messages" "message" items ∧
    root.IsInventory "enums" "enum" entries ∧ count = items.length + entries.length

/-- The elements that are compiled are all that there are. -/
theorem isElementCount_length :
    IsElementCount root ((messageElements root).length + (enumerationElements root).length) := by
  obtain ⟨items, hitems, hmessages⟩ := exists_inventory_messageElements root
  obtain ⟨entries, hentries, henumerations⟩ := exists_inventory_enumerationElements root
  refine ⟨items, entries, hitems, hentries, ?_⟩
  rw [← hmessages, ← henumerations, List.length_map, List.length_map]

/-- What each element that is to define a message comes to by itself, in document order. -/
def messageResults : List (Except Fault Message) := (messageElements root).map Message.ofElement

/-- What each element that is to define an enumeration comes to, in document order. -/
def enumerationResults : List (Except Fault Enumeration) :=
  (enumerationElements root).map Enumeration.ofElement

/-- The verdicts on the elements that are to define messages, in document order. -/
def messageVerdicts : List (Except Fault Message) := verdictsBehind [] (messageResults root)

/-- There is one verdict on each element. -/
theorem length_messageVerdicts : (messageVerdicts root).length = (messageElements root).length := by
  rw [messageVerdicts, length_verdictsBehind, messageResults, List.length_map]

/-- The intake of a document is that of its verdicts. -/
theorem intake_eq : intake root = Intake.ofVerdicts (messageVerdicts root) := by
  refine foldl_add_eq fun m hm => ?_
  obtain ⟨e, -, he⟩ := List.mem_map.mp hm
  exact Message.id_le_of_ofElement he

/-- A document is known from the verdicts on its elements. -/
theorem ofElement_eq :
    ofElement name root workers =
      ⟨name, successes (messageVerdicts root), successes (enumerationResults root),
        ⟨(successes (messageVerdicts root)).map Message.slot⟩,
        failures (messageVerdicts root) ++ failures (enumerationResults root)⟩ := by
  have hintake := intake_eq root
  rw [intake] at hintake
  rw [ofElement, Work.fanOut_eq_map]
  simp only [hintake]
  rfl

/-- There is one answer or one fault for each element. -/
theorem length_ofElement :
    (ofElement name root workers).messages.length +
        (ofElement name root workers).enumerations.length +
        (ofElement name root workers).faults.length =
      (messageElements root).length + (enumerationElements root).length := by
  have hmessages := length_successes_add_length_failures (messageVerdicts root)
  have henumerations := length_successes_add_length_failures (enumerationResults root)
  rw [length_messageVerdicts] at hmessages
  rw [enumerationResults, List.length_map, ← enumerationResults] at henumerations
  rw [ofElement_eq]
  simp only [List.length_append]
  omega

variable {root}

/-- A verdict is made on a result and on those in front of it. -/
theorem getElem?_messageVerdicts {i : Nat} :
    (messageVerdicts root)[i]? =
      (messageResults root)[i]?.map (verdict ((messageResults root).take i)) :=
  getElem?_verdictsBehind

/-- An id is free at a place exactly if no message in front of it has it. -/
theorem holder?_take_eq_none_iff {i : Nat} {id : UInt8} :
    holder? ((messageResults root).take i) id = none ↔
      ∀ j < i, ∀ m, (messageResults root)[j]? = some (.ok m) → m.id ≠ id := by
  rw [holder?_eq_none_iff]
  constructor
  · intro h j hj m hm
    exact h m (List.mem_iff_getElem?.mpr ⟨j, by rw [List.getElem?_take_of_lt hj, hm]⟩)
  · intro h m hm
    obtain ⟨j, hj⟩ := List.mem_iff_getElem?.mp hm
    rw [List.getElem?_take, Option.ite_none_right_eq_some] at hj
    exact h j hj.1 m hj.2

/-- The holder of an id has been accepted. -/
theorem exists_verdict_of_holder? {i : Nat} {id : UInt8} {holder : Message}
    (h : holder? ((messageResults root).take i) id = some holder) :
    ∃ k < i, (messageVerdicts root)[k]? = some (.ok holder) := by
  obtain ⟨front, back, hsplit, hfront⟩ := exists_eq_append_of_holder? h
  have hlength : front.length < i := by
    have hlengths := congrArg List.length hsplit
    rw [List.length_append, List.length_cons, List.length_take] at hlengths
    omega
  have hresult : (messageResults root)[front.length]? = some (.ok holder) := by
    rw [← List.getElem?_take_of_lt hlength, hsplit, List.getElem?_append_right (Nat.le_refl _),
      Nat.sub_self]
    rfl
  -- what is in front of the holder has none of the id, so the holder was accepted
  have htake : (messageResults root).take front.length = front := by
    rw [← Nat.min_eq_left (Nat.le_of_lt hlength), ← List.take_take, hsplit, List.take_left]
  refine ⟨front.length, hlength, ?_⟩
  rw [getElem?_messageVerdicts, hresult, htake, Option.map_some, verdict_eq_ok_iff.mpr]
  exact ⟨rfl, by rwa [id_of_holder? h]⟩

/-- **Nothing is lost, and the first definition wins.** There is one verdict on each element that is
to define a message. It accepts a message exactly if the element defines it and no element in front
defines one with the same id. The fault of an element that defines none is what is reported of it,
and an element whose id was taken is reported with the name of the accepted message that has it. The
document has the accepted messages in the order of their elements and the enumerations that are
well-formed; then the faults of the messages and those of the enumerations, each in document order;
and so one answer or one fault for each element. The elements are those that stand in the blocks of
messages and of enumerations, from the top of the document down. -/
theorem ofElement_accounts (name : String) (root : Element) (workers : Nat) :
    let d := ofElement name root workers
    (messageVerdicts root).length = (messageElements root).length ∧
      (∀ (i : Nat) (m : Message), (messageVerdicts root)[i]? = some (.ok m) ↔
        (messageResults root)[i]? = some (.ok m) ∧
          ∀ j < i, ∀ m' : Message, (messageResults root)[j]? = some (.ok m') → m'.id ≠ m.id) ∧
      (∀ (i : Nat) (fault : Fault), (messageResults root)[i]? = some (.error fault) →
        (messageVerdicts root)[i]? = some (.error fault)) ∧
      (∀ (i : Nat) (m : Message), (messageResults root)[i]? = some (.ok m) →
        (∃ j < i, ∃ m' : Message, (messageResults root)[j]? = some (.ok m') ∧ m'.id = m.id) →
        ∃ k < i, ∃ holder : Message, (messageVerdicts root)[k]? = some (.ok holder) ∧
          holder.id = m.id ∧
          (messageVerdicts root)[i]? = some (.error (.duplicateId m.id m.name holder.name))) ∧
      d.messages = successes (messageVerdicts root) ∧
      d.enumerations = successes (enumerationResults root) ∧
      d.faults = failures (messageVerdicts root) ++ failures (enumerationResults root) ∧
      d.messages.length + d.enumerations.length + d.faults.length =
        (messageElements root).length + (enumerationElements root).length ∧
      (∃ items, root.IsInventory "messages" "message" items ∧
        items.map (·.2) = messageElements root) ∧
      (∃ entries, root.IsInventory "enums" "enum" entries ∧
        entries.map (·.2) = enumerationElements root) := by
  intro d
  have hd : d = _ := ofElement_eq name root workers
  refine ⟨length_messageVerdicts root, ?_, ?_, ?_, by rw [hd], by rw [hd], by rw [hd],
    length_ofElement name root workers, exists_inventory_messageElements root,
    exists_inventory_enumerationElements root⟩
  · intro i m
    rw [getElem?_messageVerdicts, Option.map_eq_some_iff, ← holder?_take_eq_none_iff]
    simp only [verdict_eq_ok_iff]
    constructor
    · rintro ⟨_, hresult, rfl, hfree⟩
      exact ⟨hresult, hfree⟩
    · rintro ⟨hresult, hfree⟩
      exact ⟨_, hresult, rfl, hfree⟩
  · intro i fault hfault
    rw [getElem?_messageVerdicts, hfault]
    rfl
  · rintro i m hm ⟨j, hj, m', hm', hid⟩
    -- if the id is taken in front, there is a first message that took it, and that one is accepted
    rcases hholder : holder? ((messageResults root).take i) m.id with _ | holder
    · exact absurd hid (holder?_take_eq_none_iff.mp hholder j hj m' hm')
    · obtain ⟨k, hk, haccepted⟩ := exists_verdict_of_holder? hholder
      refine ⟨k, hk, holder, haccepted, id_of_holder? hholder, ?_⟩
      rw [getElem?_messageVerdicts, hm, Option.map_some, verdict_of_holder? hholder]

end Document

end Dialect.Schema

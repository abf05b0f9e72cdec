import Dialect.Proofs.Markup.Place
import Dialect.Proofs.Schema.Verdict

/-!
# Taking a refused definition out

A refused result holds no id, so the verdicts behind it are those that there are without it
(`verdictsBehind_of_refused`). An element that is reported leaves nothing else behind: without it,
the document is the same but for the entry that reports it (`ofElement_without`).
-/

namespace Dialect.Schema

namespace Document

open Dialect.Markup (Element)

section Verdicts

variable {earlier earlier' results : List (Except Fault Message)} {result : Except Fault Message}
  {fault : Fault}

/-- Verdicts depend only on who holds which id. -/
theorem verdictsBehind_congr (h : ∀ id, holder? earlier id = holder? earlier' id) :
    verdictsBehind earlier results = verdictsBehind earlier' results := by
  induction results generalizing earlier earlier' with
  | nil => rfl
  | cons result rest ih =>
    have hverdict : verdict earlier result = verdict earlier' result := by
      cases result with
      | error fault => rfl
      | ok m => rw [verdict, verdict, h]
    have hbehind : ∀ id, holder? (earlier ++ [result]) id = holder? (earlier' ++ [result]) id := by
      intro id
      rw [holder?_append, holder?_append, h]
    rw [verdictsBehind, verdictsBehind, hverdict, ih hbehind]

/-- The verdicts behind a refused result are those that there are without it. -/
theorem verdictsBehind_of_refused (h : verdict earlier result = .error fault) :
    verdictsBehind earlier (result :: results) =
      .error fault :: verdictsBehind earlier results := by
  rw [verdictsBehind, h, verdictsBehind_congr fun _ => holder?_append_of_verdict h]

/-- A message stands unless its id has been taken. -/
theorem successes_verdict {m : Message} :
    successes [verdict earlier (.ok m)] = if (holder? earlier m.id).isSome then [] else [m] := by
  rw [verdict]
  cases holder? earlier m.id with
  | none => rfl
  | some holder => rfl

/-- Which messages stand depends only on which of their ids are held. -/
theorem successes_verdictsBehind_congr
    (h : ∀ m, .ok m ∈ results → (holder? earlier m.id).isSome = (holder? earlier' m.id).isSome) :
    successes (verdictsBehind earlier results) = successes (verdictsBehind earlier' results) := by
  induction results generalizing earlier earlier' with
  | nil => rfl
  | cons result rest ih =>
    have hrest : successes (verdictsBehind (earlier ++ [result]) rest) =
        successes (verdictsBehind (earlier' ++ [result]) rest) := by
      refine ih fun m hm => ?_
      rw [holder?_append, holder?_append, Option.isSome_or, Option.isSome_or,
        h m (List.mem_cons_of_mem result hm)]
    have hfirst : successes [verdict earlier result] = successes [verdict earlier' result] := by
      cases result with
      | error fault => rfl
      | ok m =>
        rw [successes_verdict, successes_verdict, h m List.mem_cons_self]
    show successes ([verdict earlier result] ++ _) = successes ([verdict earlier' result] ++ _)
    rw [successes_append, successes_append, hfirst, hrest]

/-- A message that stands is one of the results, and nothing in front of them has its id. -/
theorem of_mem_successes_verdictsBehind {m : Message}
    (h : m ∈ successes (verdictsBehind earlier results)) :
    .ok m ∈ results ∧ holder? earlier m.id = none := by
  induction results generalizing earlier with
  | nil => exact absurd h (by simp [verdictsBehind, successes])
  | cons result rest ih =>
    rw [mem_successes_iff, verdictsBehind, List.mem_cons] at h
    rcases h with h | h
    · obtain ⟨rfl, hfree⟩ := verdict_eq_ok_iff.mp h.symm
      exact ⟨List.mem_cons_self, hfree⟩
    · obtain ⟨hmem, hfree⟩ := ih (mem_successes_iff.mpr h)
      rw [holder?_append, Option.or_eq_none_iff] at hfree
      exact ⟨List.mem_cons_of_mem result hmem, hfree.1⟩

/-- A verdict is one on a result behind those in front of it. -/
theorem exists_of_verdictsBehind_eq {front back : List (Except Fault Message)}
    {v : Except Fault Message} (h : verdictsBehind earlier results = front ++ v :: back) :
    ∃ before result behind, results = before ++ result :: behind ∧
      verdictsBehind earlier before = front ∧ verdict (earlier ++ before) result = v := by
  induction results generalizing earlier front with
  | nil => exact absurd h (by simp [verdictsBehind])
  | cons result rest ih =>
    rw [verdictsBehind] at h
    cases front with
    | nil =>
      obtain ⟨hv, -⟩ := List.cons.inj h
      exact ⟨[], result, rest, rfl, rfl, by rw [List.append_nil, hv]⟩
    | cons first front =>
      obtain ⟨hfirst, hrest⟩ := List.cons.inj h
      obtain ⟨before, result', behind, rfl, hfront, hv⟩ := ih hrest
      refine ⟨result :: before, result', behind, rfl, ?_, ?_⟩
      · rw [verdictsBehind, hfront, hfirst]
      · rwa [List.append_assoc] at hv

/-- Each entry of the faults of some results is that of one of them. -/
theorem exists_of_getElem?_failures {α : Type} {results : List (Except Fault α)} {n : Nat}
    (h : (failures results)[n]? = some fault) :
    ∃ front back, results = front ++ .error fault :: back ∧ (failures front).length = n := by
  have hn : n < (failures results).length := (List.getElem?_eq_some_iff.mp h).1
  obtain ⟨front, result, back, hresults, hfront, hresult⟩ :=
    exists_of_filterMap_eq (Element.eq_take_append_cons_drop h)
  refine ⟨front, back, ?_, ?_⟩
  · cases result with
    | ok a => exact absurd hresult (by simp)
    | error fault' => rw [hresults, Option.some.inj hresult]
  · rw [show failures front = _ from hfront, List.length_take]
    exact Nat.min_eq_left (Nat.le_of_lt hn)

end Verdicts

variable {root e : Element} {i j : Nat}

/-- What the elements behind item `j` of block `i` that are to define messages come to. -/
def messageResultsBehind (root : Element) (i j : Nat) : List (Except Fault Message) :=
  (messageResults root).drop ((messageResults (root.upTo i j)).length + 1)

/-- The results of a document around one of its messages, with it and without it. -/
theorem messageResults_eq (h : root.StandsAt i j "messages" "message" e) :
    messageResults root =
        messageResults (root.upTo i j) ++ Message.ofElement e :: messageResultsBehind root i j ∧
      messageResults (root.without i j) =
        messageResults (root.upTo i j) ++ messageResultsBehind root i j := by
  obtain ⟨back, hwith, hwithout⟩ := h.exists_itemsUnder_eq
  have hroot : messageResults root =
      messageResults (root.upTo i j) ++ Message.ofElement e :: back.map Message.ofElement :=
    (congrArg (List.map Message.ofElement) hwith).trans (List.map_append ..)
  have hbehind : messageResultsBehind root i j = back.map Message.ofElement := by
    rw [messageResultsBehind, hroot, List.drop_length_add_append]
    rfl
  rw [hbehind]
  exact ⟨hroot, (congrArg (List.map Message.ofElement) hwithout).trans (List.map_append ..)⟩

/-- The results of a document around one of its enumerations, with it and without it. -/
theorem exists_enumerationResults_eq (h : root.StandsAt i j "enums" "enum" e) :
    ∃ back,
      enumerationResults root =
        enumerationResults (root.upTo i j) ++ Enumeration.ofElement e :: back ∧
      enumerationResults (root.without i j) = enumerationResults (root.upTo i j) ++ back := by
  obtain ⟨back, hwith, hwithout⟩ := h.exists_itemsUnder_eq
  refine ⟨back.map Enumeration.ofElement, ?_, ?_⟩
  · exact (congrArg (List.map Enumeration.ofElement) hwith).trans (List.map_append ..)
  · exact (congrArg (List.map Enumeration.ofElement) hwithout).trans (List.map_append ..)

/-- Item `j` of block `i` is reported in its document: it is to define a message or an enumeration
and does not, or its message comes too late for its id. `n` is the entry that reports it, behind
those of the elements in front of it. -/
inductive ReportedAt (root : Element) (i j : Nat) : Fault → Nat → Prop where
  | message {e : Element} {fault : Fault} (place : root.StandsAt i j "messages" "message" e)
      (refused : Message.ofElement e = .error fault) :
      ReportedAt root i j fault (failures (messageVerdicts (root.upTo i j))).length
  | repeated {e : Element} {m holder : Message}
      (place : root.StandsAt i j "messages" "message" e) (defined : Message.ofElement e = .ok m)
      (held : holder? (messageResults (root.upTo i j)) m.id = some holder) :
      ReportedAt root i j (.duplicateId m.id m.name holder.name)
        (failures (messageVerdicts (root.upTo i j))).length
  | enumeration {e : Element} {fault : Fault} (place : root.StandsAt i j "enums" "enum" e)
      (refused : Enumeration.ofElement e = .error fault) :
      ReportedAt root i j fault
        ((failures (messageVerdicts root)).length +
          (failures (enumerationResults (root.upTo i j))).length)

/-- Each result is that of an element at some place, behind those in front of it. -/
theorem exists_place_of_messageResults {front back : List (Except Fault Message)}
    {result : Except Fault Message} (h : messageResults root = front ++ result :: back) :
    ∃ i j e, root.StandsAt i j "messages" "message" e ∧ Message.ofElement e = result ∧
      messageResults (root.upTo i j) = front :=
  Element.exists_standsAt_of_map h

/-- Every entry of the faults of a document reports an element. -/
theorem exists_reportedAt {name : String} {workers n : Nat} {fault : Fault}
    (h : (ofElement name root workers).faults[n]? = some fault) :
    ∃ i j, ReportedAt root i j fault n := by
  rw [ofElement_eq] at h
  -- the faults of messages stand in front of those of enumerations
  rcases Nat.lt_or_ge n (failures (messageVerdicts root)).length with hn | hn
  · rw [List.getElem?_append_left hn] at h
    obtain ⟨front, back, hverdicts, rfl⟩ := exists_of_getElem?_failures h
    obtain ⟨before, result, behind, hresults, hbefore, hverdict⟩ :=
      exists_of_verdictsBehind_eq hverdicts
    obtain ⟨i, j, e, hplace, he, hupTo⟩ := exists_place_of_messageResults hresults
    -- the verdicts in front of the fault are all those on the document up to the element
    have hfront : messageVerdicts (root.upTo i j) = front := by rw [messageVerdicts, hupTo, hbefore]
    rw [List.nil_append, ← hupTo] at hverdict
    refine ⟨i, j, ?_⟩
    rw [← hfront]
    cases result with
    | error fault' =>
      obtain rfl := Except.error.inj hverdict
      exact .message hplace he
    | ok m =>
      rw [verdict] at hverdict
      split at hverdict
      · exact absurd hverdict (by simp)
      · next holder hheld =>
        obtain rfl := Except.error.inj hverdict
        exact .repeated hplace he hheld
  · rw [List.getElem?_append_right hn] at h
    obtain ⟨front, back, hresults, hlength⟩ := exists_of_getElem?_failures h
    obtain ⟨i, j, e, hplace, he, hupTo⟩ := Element.exists_standsAt_of_map hresults
    -- the fault is as far behind those of messages as enumerations in front of it have faults
    have hn' : n = (failures (messageVerdicts root)).length +
        (failures (enumerationResults (root.upTo i j))).length := by
      have hfront : enumerationResults (root.upTo i j) = front := hupTo
      rw [hfront]
      omega
    rw [hn']
    exact ⟨i, j, .enumeration hplace he⟩

/-- A document that is the same but for a fault has all entries but that of the fault. -/
theorem eq_eraseIdx_of_eq {d d' : Document} {front back : List Fault} {fault : Fault}
    (hfaults : d.faults = front ++ fault :: back) (hd' : d' = { d with faults := front ++ back }) :
    d.faults[front.length]? = some fault ∧
      d' = { d with faults := d.faults.eraseIdx front.length } := by
  rw [hd', hfaults, List.eraseIdx_append_of_length_le (Nat.le_refl _), Nat.sub_self]
  exact ⟨by simp, rfl⟩

variable (name : String) (workers workers' : Nat)

/-- Without an element whose message is refused, its verdict is missing and no other. -/
theorem exists_messageVerdicts_eq {fault : Fault}
    (hplace : root.StandsAt i j "messages" "message" e)
    (hrefused : verdict (messageResults (root.upTo i j)) (Message.ofElement e) = .error fault) :
    ∃ behind,
      messageVerdicts root = messageVerdicts (root.upTo i j) ++ .error fault :: behind ∧
        messageVerdicts (root.without i j) = messageVerdicts (root.upTo i j) ++ behind := by
  obtain ⟨hwith, hwithout⟩ := messageResults_eq hplace
  refine ⟨verdictsBehind (messageResults (root.upTo i j)) (messageResultsBehind root i j), ?_, ?_⟩
  · rw [messageVerdicts, hwith, verdictsBehind_append, List.nil_append,
      verdictsBehind_of_refused hrefused, messageVerdicts]
  · rw [messageVerdicts, hwithout, verdictsBehind_append, List.nil_append, messageVerdicts]

/-- Without a message that is refused, a document is the same but for its fault. -/
theorem ofElement_without_message {fault : Fault}
    (hplace : root.StandsAt i j "messages" "message" e)
    (hrefused : verdict (messageResults (root.upTo i j)) (Message.ofElement e) = .error fault) :
    let n := (failures (messageVerdicts (root.upTo i j))).length
    (ofElement name root workers).faults[n]? = some fault ∧
      ofElement name (root.without i j) workers' =
        { ofElement name root workers with
          faults := (ofElement name root workers).faults.eraseIdx n } := by
  obtain ⟨behind, hwith, hwithout⟩ := exists_messageVerdicts_eq hplace hrefused
  have henums : enumerationElements (root.without i j) = enumerationElements root :=
    hplace.itemsUnder_without (by decide)
  have hfaults : (ofElement name root workers).faults =
      failures (messageVerdicts (root.upTo i j)) ++
        fault :: (failures behind ++ failures (enumerationResults root)) := by
    rw [ofElement_eq, hwith, failures_append, List.append_assoc]
    rfl
  refine eq_eraseIdx_of_eq hfaults ?_
  rw [ofElement_eq, ofElement_eq, hwith, hwithout, enumerationResults, henums, failures_append,
    successes_append, successes_append, List.append_assoc]
  rfl

/-- Without an enumeration that is refused, a document is the same but for its fault. -/
theorem ofElement_without_enumeration {fault : Fault} (hplace : root.StandsAt i j "enums" "enum" e)
    (hrefused : Enumeration.ofElement e = .error fault) :
    let n := (failures (messageVerdicts root)).length +
      (failures (enumerationResults (root.upTo i j))).length
    (ofElement name root workers).faults[n]? = some fault ∧
      ofElement name (root.without i j) workers' =
        { ofElement name root workers with
          faults := (ofElement name root workers).faults.eraseIdx n } := by
  obtain ⟨back, hwith, hwithout⟩ := exists_enumerationResults_eq hplace
  -- no message is taken away, so all verdicts are the same
  have hmessages : messageElements (root.without i j) = messageElements root :=
    hplace.itemsUnder_without (by decide)
  have hverdicts : messageVerdicts (root.without i j) = messageVerdicts root := by
    rw [messageVerdicts, messageResults, hmessages]
    rfl
  rw [hrefused] at hwith
  have hfaults : (ofElement name root workers).faults =
      (failures (messageVerdicts root) ++ failures (enumerationResults (root.upTo i j))) ++
        fault :: failures back := by
    rw [ofElement_eq, hwith, failures_append, List.append_assoc]
    rfl
  rw [← List.length_append]
  refine eq_eraseIdx_of_eq hfaults ?_
  rw [ofElement_eq, ofElement_eq, hverdicts, hwith, hwithout, failures_append, successes_append,
    successes_append, List.append_assoc]
  rfl

/-- Without an element that is reported, a document is the same but for the entry that reports
it. -/
theorem ofElement_of_reportedAt {n : Nat} {fault : Fault} (h : ReportedAt root i j fault n) :
    (ofElement name root workers).faults[n]? = some fault ∧
      ofElement name (root.without i j) workers' =
        { ofElement name root workers with
          faults := (ofElement name root workers).faults.eraseIdx n } := by
  cases h with
  | message hplace hrefused =>
    exact ofElement_without_message name workers workers' hplace (by rw [hrefused]; rfl)
  | repeated hplace hdefined hheld =>
    refine ofElement_without_message name workers workers' hplace ?_
    rw [hdefined, verdict_of_holder? hheld]
  | enumeration hplace hrefused =>
    exact ofElement_without_enumeration name workers workers' hplace hrefused

/-- **A refused definition leaves nothing behind.** Every entry of the faults of a document reports
an element. Without that element, the document has the same messages, enumerations and table and all
faults but that entry, however many workers compile it. -/
theorem ofElement_without (name : String) (root : Element) (workers workers' : Nat) :
    let d := ofElement name root workers
    (∀ (n : Nat) (fault : Fault), d.faults[n]? = some fault → ∃ i j, ReportedAt root i j fault n) ∧
      ∀ (i j n : Nat) (fault : Fault), ReportedAt root i j fault n →
        d.faults[n]? = some fault ∧
          ofElement name (root.without i j) workers' =
            { d with faults := d.faults.eraseIdx n } := by
  constructor
  · intro n fault h
    exact exists_reportedAt h
  · intro i j n fault h
    exact ofElement_of_reportedAt name workers workers' h

/-- An element that defines a message without fields. -/
def bareMessage (id name : String) : Element :=
  ⟨"message", [("id", id), ("name", name)], [], "", 1⟩

/-- A document with an element that defines nothing, and one that comes too late for its id. -/
def crowdedRoot : Element :=
  ⟨"d", [], [⟨"messages", [], [bareMessage "x" "Broken", bareMessage "7" "First",
    bareMessage "7" "Late", bareMessage "8" "Next"], "", 1⟩], "", 1⟩

/-- A message that came too late for its id, and the document without it. -/
theorem ofElement_without_sample :
    ReportedAt crowdedRoot 0 2 (.duplicateId 7 "Late" "First") 1 ∧
      (ofElement "d" crowdedRoot 1).faults[1]? = some (.duplicateId 7 "Late" "First") ∧
      (ofElement "d" (crowdedRoot.without 0 2) 2).messages =
        [⟨7, "First", none, []⟩, ⟨8, "Next", none, []⟩] ∧
      (ofElement "d" (crowdedRoot.without 0 2) 2).faults = [.invalidId "Broken" "x"] := by
  have hlate : Message.ofElement (bareMessage "7" "Late") = .ok ⟨7, "Late", none, []⟩ := rfl
  have hfirst : holder? (messageResults (crowdedRoot.upTo 0 2)) 7 = some ⟨7, "First", none, []⟩ :=
    rfl
  have hreported : ReportedAt crowdedRoot 0 2 (.duplicateId 7 "Late" "First") 1 :=
    .repeated ⟨_, rfl, rfl, rfl, rfl⟩ hlate hfirst
  obtain ⟨hfault, hwithout⟩ := (ofElement_without "d" crowdedRoot 1 2).2 0 2 1 _ hreported
  refine ⟨hreported, hfault, ?_, ?_⟩
  · rw [hwithout, ofElement_eq]
    rfl
  · rw [hwithout, ofElement_eq]
    rfl

end Document

end Dialect.Schema

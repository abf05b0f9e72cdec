import Dialect.Proofs.Run.Selection
import Dialect.Proofs.Schema.Removal

/-!
# Taking a rejected element out

A message can lose twice: in its document, to one in front of it with the same id, and in the run,
to one with the same file or id. A message that loses in the run has won in its document, and there
it may have kept out another with its id (`Hides`). That is the only trace a rejected element leaves
(`select_without`, `kept_without_eq_iff`), and it takes a message that lost for its file to leave it
(`Hides.fault_eq`).
-/

namespace Dialect.Run

open Dialect.Markup (Element)
open Dialect.Schema (Fault Message Table)
open Dialect.Schema.Document (ReportedAt enumerationElements enumerationResults
  exists_eq_append_of_holder? exists_place_of_messageResults exists_reportedAt holder?
  holder?_append holder?_eq_none_iff id_of_holder? messageResults messageResultsBehind
  messageResults_eq ofElement ofElement_eq ofElement_of_reportedAt of_mem_successes_verdictsBehind
  successes successes_append successes_verdict successes_verdictsBehind_congr verdict
  verdict_eq_ok_iff verdictsBehind verdictsBehind_append)

/-! ## One message too many -/

section Results

variable {front between behind : List (Except Fault Message)} {m m' : Message}

/-- What stands behind a message is what would stand without it, if nothing there has its id. -/
theorem successes_verdictsBehind_of_free (h : holder? behind m.id = none) :
    successes (verdictsBehind (front ++ [.ok m]) behind) =
      successes (verdictsBehind front behind) := by
  refine successes_verdictsBehind_congr fun other hother => ?_
  have hne : other.id ≠ m.id := holder?_eq_none_iff.mp h other hother
  have hnone : holder? [.ok m] other.id = none := by
    simpa [holder?_eq_none_iff] using hne.symm
  rw [holder?_append, hnone, Option.or_none]

/-- Without a message, the next one with its id stands, and all others as before. -/
theorem successes_verdictsBehind_of_next (behind : List (Except Fault Message))
    (hfirst : holder? front m.id = none) (hid : m'.id = m.id)
    (hbetween : holder? between m.id = none) :
    successes (verdictsBehind (front ++ [.ok m]) (between ++ .ok m' :: behind)) =
        successes (verdictsBehind front between) ++
          successes (verdictsBehind (front ++ between ++ [.ok m']) behind) ∧
      successes (verdictsBehind front (between ++ .ok m' :: behind)) =
        successes (verdictsBehind front between) ++
          m' :: successes (verdictsBehind (front ++ between ++ [.ok m']) behind) := by
  have hheld : holder? (front ++ [.ok m] ++ between) m'.id ≠ none := by
    rw [hid, Ne, holder?_eq_none_iff]
    exact fun h => h m (by simp) rfl
  have hfree : holder? (front ++ between) m'.id = none := by
    rw [hid, holder?_append, hfirst, hbetween]
    rfl
  -- `m` and `m'` hold the same id, so what is behind both does not tell them apart
  have hbehind : successes (verdictsBehind (front ++ [.ok m] ++ between ++ [.ok m']) behind) =
      successes (verdictsBehind (front ++ between ++ [.ok m']) behind) := by
    refine successes_verdictsBehind_congr fun other _ => ?_
    have hsame : (holder? [.ok m] other.id).isSome = (holder? [.ok m'] other.id).isSome := by
      simp only [holder?, successes, hid, List.filterMap_cons, List.filterMap_nil, List.find?_cons]
      split <;> rfl
    simp only [holder?_append, Option.isSome_or, hsame]
    cases (holder? front other.id).isSome <;> cases (holder? [.ok m'] other.id).isSome <;>
      cases (holder? between other.id).isSome <;> rfl
  constructor
  · rw [verdictsBehind_append, successes_append, successes_verdictsBehind_of_free hbetween]
    show _ ++ successes ([verdict _ _] ++ _) = _
    rw [successes_append, successes_verdict, if_pos (Option.isSome_iff_ne_none.mpr hheld), hbehind]
    rfl
  · rw [verdictsBehind_append, successes_append]
    show _ ++ successes ([verdict _ _] ++ _) = _
    rw [successes_append, successes_verdict, hfree]
    rfl

/-- A message that is the first with its id stands, and what follows is judged behind it. -/
theorem successes_verdictsBehind_cons (hfirst : holder? front m.id = none) :
    successes (verdictsBehind [] (front ++ .ok m :: behind)) =
      successes (verdictsBehind [] front) ++
        m :: successes (verdictsBehind (front ++ [.ok m]) behind) := by
  rw [verdictsBehind_append, successes_append]
  show _ ++ successes ([verdict _ _] ++ _) = _
  rw [successes_append, successes_verdict, List.nil_append, hfirst]
  rfl

end Results

/-! ## Documents -/

/-- What a run chooses among the messages that stand among some results. -/
def choose (table : Table) (results : List (Except Fault Message)) : Selection :=
  select table (successes (verdictsBehind [] results))

variable {table : Table} {root e : Element} {m : Message} {i j : Nat} {fault : Fault}

/-- What a run chooses in a document depends on the results there, and on no number of workers. -/
theorem select_messages (table : Table) (name : String) (root : Element) (workers : Nat) :
    select table (ofElement name root workers).messages = choose table (messageResults root) := by
  rw [ofElement_eq]
  rfl

/-- Item `j` of block `i` is rejected in a run, when the ids of a table are taken: it is reported in
its document, or its message is the first there with its id and is not listed. -/
inductive RejectedAt (table : Table) (root : Element) (i j : Nat) : Fault → Prop where
  | inDocument {fault : Fault} {n : Nat} (reported : ReportedAt root i j fault n) :
      RejectedAt table root i j fault
  | inRun {e : Element} {m : Message} {fault : Fault}
      (place : root.StandsAt i j "messages" "message" e) (defined : Message.ofElement e = .ok m)
      (first : holder? (messageResults (root.upTo i j)) m.id = none)
      (refused : (choose table (messageResults (root.upTo i j))).refusal? m = some fault) :
      RejectedAt table root i j fault

/-- The message of item `j` of block `i`, the first in its document with its id, hides another: the
next one with that id would be listed if the item were not there. -/
inductive Hides (table : Table) (root : Element) (i j : Nat) : Prop where
  | intro {e : Element} {m m' : Message} {between behind : List (Except Fault Message)}
      (place : root.StandsAt i j "messages" "message" e) (defined : Message.ofElement e = .ok m)
      (first : holder? (messageResults (root.upTo i j)) m.id = none)
      (next : messageResultsBehind root i j = between ++ .ok m' :: behind) (id_eq : m'.id = m.id)
      (free : holder? between m.id = none)
      (kept : (choose table (messageResults (root.upTo i j) ++ between)).refusal? m' = none)

/-- What is chosen behind a message that is the first with its id. -/
theorem choose_append_cons {front : List (Except Fault Message)}
    (behind : List (Except Fault Message)) (hfirst : holder? front m.id = none)
    (hrefused : (choose table front).refusal? m = some fault) :
    (choose table (front ++ .ok m :: behind)).Alike
      (select table (successes (verdictsBehind [] front) ++
        successes (verdictsBehind (front ++ [.ok m]) behind))) := by
  rw [choose, successes_verdictsBehind_cons hfirst]
  exact select_cons_alike _ hrefused

/-- A choice among results goes on behind the first of them. -/
theorem choose_append (front behind : List (Except Fault Message)) :
    choose table (front ++ behind) =
      select table (successes (verdictsBehind [] front) ++
        successes (verdictsBehind front behind)) := by
  rw [choose, verdictsBehind_append, successes_append]
  rfl

/-- Without a message that is refused in a run, the run chooses the same, unless the next message
with its id is chosen now. -/
theorem choose_without {front behind : List (Except Fault Message)}
    (hfirst : holder? front m.id = none)
    (hrefused : (choose table front).refusal? m = some fault)
    (hnext : ∀ between m' rest, behind = between ++ .ok m' :: rest → m'.id = m.id →
      holder? between m.id = none → (choose table (front ++ between)).refusal? m' ≠ none) :
    (choose table (front ++ .ok m :: behind)).Alike (choose table (front ++ behind)) := by
  have hwith := choose_append_cons behind hfirst hrefused
  rw [choose_append front behind]
  -- only the next message with the id can be chosen instead, and it is refused as well
  rcases hholder : holder? behind m.id with _ | m'
  · rwa [successes_verdictsBehind_of_free hholder] at hwith
  · obtain ⟨between, rest, rfl, hbetween⟩ := exists_eq_append_of_holder? hholder
    have hid : m'.id = m.id := id_of_holder? hholder
    obtain ⟨fault', hfault'⟩ :=
      Option.ne_none_iff_exists'.mp (hnext between m' rest rfl hid hbetween)
    obtain ⟨hrest, hrest'⟩ := successes_verdictsBehind_of_next rest hfirst hid hbetween
    rw [hrest, ← List.append_assoc] at hwith
    rw [hrest', ← List.append_assoc]
    rw [choose_append] at hfault'
    have hwithout := select_cons_alike
      (successes (verdictsBehind (front ++ between ++ [.ok m']) rest)) hfault'
    exact ⟨hwith.1.trans hwithout.1.symm, hwith.2.trans hwithout.2.symm⟩

/-- The next message with the id of one that is refused in a run is chosen only without that one. -/
theorem notMem_kept_choose {front between : List (Except Fault Message)} {m' : Message}
    (rest : List (Except Fault Message))
    (hfirst : holder? front m.id = none) (hid : m'.id = m.id)
    (hbetween : holder? between m.id = none)
    (hrefused : (choose table front).refusal? m = some fault) :
    (listingFile m', m') ∉ (choose table (front ++ .ok m :: (between ++ .ok m' :: rest))).kept := by
  rw [(choose_append_cons _ hfirst hrefused).1]
  intro hmem
  rcases Selection.mem_of_mem_kept_foldl hmem with hnone | ⟨hmessages, -⟩
  · exact absurd hnone (by simp)
  · rw [(successes_verdictsBehind_of_next rest hfirst hid hbetween).1, List.mem_append,
      List.mem_append] at hmessages
    rcases hmessages with hfront | hbetween' | hrest
    · exact holder?_eq_none_iff.mp hfirst m' (of_mem_successes_verdictsBehind hfront).1 hid
    · exact holder?_eq_none_iff.mp hbetween m' (of_mem_successes_verdictsBehind hbetween').1 hid
    · exact holder?_eq_none_iff.mp (of_mem_successes_verdictsBehind hrest).2 m' (by simp) rfl

/-- A message that nothing in front of it keeps out is chosen. -/
theorem mem_kept_choose {front rest : List (Except Fault Message)} {m' : Message}
    (hfirst : holder? front m'.id = none) (hkept : (choose table front).refusal? m' = none) :
    (listingFile m', m') ∈ (choose table (front ++ .ok m' :: rest)).kept := by
  rw [choose, successes_verdictsBehind_cons hfirst, select_append, List.foldl_cons]
  refine Selection.mem_kept_foldl ?_ _
  rw [choose] at hkept
  rw [Selection.add_of_kept hkept]
  exact List.mem_append_right _ (List.mem_singleton_self _)

/-- An element that is rejected and hides another has been refused in the run. -/
theorem RejectedAt.exists_of_hides (h : RejectedAt table root i j fault)
    (hhides : Hides table root i j) :
    ∃ e m m' between behind, root.StandsAt i j "messages" "message" e ∧
      Message.ofElement e = .ok m ∧ holder? (messageResults (root.upTo i j)) m.id = none ∧
      (choose table (messageResults (root.upTo i j))).refusal? m = some fault ∧
      messageResultsBehind root i j = between ++ .ok m' :: behind ∧ m'.id = m.id ∧
      holder? between m.id = none ∧
      (choose table (messageResults (root.upTo i j) ++ between)).refusal? m' = none := by
  obtain ⟨hplace, hdefined, hfirst, hnext, hid, hfree, hkept⟩ := hhides
  refine ⟨_, _, _, _, _, hplace, hdefined, hfirst, ?_, hnext, hid, hfree, hkept⟩
  -- an element that defines the first message with its id is not rejected in its document
  cases h with
  | inDocument hreported =>
    cases hreported with
    | message hplace' hrefused =>
      rw [(hplace'.unique hplace).1, hdefined] at hrefused
      exact absurd hrefused (by simp)
    | repeated hplace' hdefined' hheld =>
      rw [(hplace'.unique hplace).1, hdefined] at hdefined'
      rw [← Except.ok.inj hdefined', hfirst] at hheld
      exact absurd hheld (by simp)
    | enumeration hplace' _ => exact absurd (hplace'.unique hplace).2 (by decide)
  | inRun hplace' hdefined' _ hrefused =>
    rw [(hplace'.unique hplace).1, hdefined] at hdefined'
    rwa [Except.ok.inj hdefined']

/-- Only a message that loses for its file hides another. -/
theorem Hides.fault_eq (hhides : Hides table root i j) (h : RejectedAt table root i j fault) :
    ∃ message existing file, fault = .artifactCollision message existing file := by
  obtain ⟨e, m, m', between, behind, hplace, hdefined, hfirst, hrefused, -, hid, -, hkept⟩ :=
    h.exists_of_hides hhides
  obtain ⟨-, hmax, hslot⟩ := Selection.refusal?_eq_none_iff.mp hkept
  rw [choose_append, select_append, hid] at hslot
  rw [hid] at hmax
  obtain ⟨existing, hfault⟩ := Selection.eq_artifactCollision_of_refused hrefused hmax
    (Selection.slot?_eq_none_of_foldl hslot)
  exact ⟨_, _, _, hfault⟩

/-- Without a rejected element that hides no other, the same messages of its document are listed,
the same ids are taken, and the document has the same enumerations. -/
theorem select_without (h : RejectedAt table root i j fault) (hhides : ¬ Hides table root i j)
    (name : String) (workers workers' : Nat) :
    (select table (ofElement name root workers).messages).Alike
        (select table (ofElement name (root.without i j) workers').messages) ∧
      (ofElement name (root.without i j) workers').enumerations =
        (ofElement name root workers).enumerations := by
  cases h with
  | inDocument hreported =>
    rw [(ofElement_of_reportedAt name workers workers' hreported).2]
    exact ⟨⟨rfl, rfl⟩, rfl⟩
  | inRun hplace hdefined hfirst hrefused =>
    obtain ⟨hwith, hwithout⟩ := messageResults_eq hplace
    rw [hdefined] at hwith
    constructor
    · rw [select_messages, select_messages, hwith, hwithout]
      refine choose_without hfirst hrefused fun between m' rest hnext hid hfree hkept => hhides ?_
      exact ⟨hplace, hdefined, hfirst, hnext, hid, hfree, hkept⟩
    · have henums : enumerationElements (root.without i j) = enumerationElements root :=
        hplace.itemsUnder_without (by decide)
      rw [ofElement_eq, ofElement_eq, enumerationResults, enumerationResults, henums]

/-- A rejected element is reported. -/
theorem RejectedAt.mem_faults (h : RejectedAt table root i j fault) (name : String)
    (workers : Nat) :
    let d := ofElement name root workers
    fault ∈ d.faults ++ (select table d.messages).faults := by
  intro d
  cases h with
  | inDocument hreported =>
    have hentry := (ofElement_of_reportedAt name workers workers hreported).1
    exact List.mem_append_left _ (List.mem_of_getElem? hentry)
  | inRun hplace hdefined hfirst hrefused =>
    refine List.mem_append_right _ ?_
    rw [select_messages, (messageResults_eq hplace).1, hdefined, choose,
      successes_verdictsBehind_cons hfirst, select_append, List.foldl_cons]
    refine Selection.mem_faults_foldl ?_ _
    rw [choose] at hrefused
    rw [Selection.add_of_refused hrefused]
    exact List.mem_append_right _ (List.mem_singleton_self _)

/-- Every fault of a choice is that of the first message with its id. -/
theorem exists_of_mem_faults_choose {results : List (Except Fault Message)}
    (h : fault ∈ (choose table results).faults) :
    ∃ front m back, results = front ++ .ok m :: back ∧ holder? front m.id = none ∧
      (choose table front).refusal? m = some fault := by
  -- on the results from the last one back, as a choice goes through them from the front
  induction results using List.reverseRecOn with
  | nil => exact absurd h (by simp [choose, verdictsBehind, successes, select])
  | append_singleton results result ih =>
    rcases hverdict : verdict results result with fault' | m
    -- an element that gives no message adds nothing
    · have hsame : choose table (results ++ [result]) = choose table results := by
        rw [choose_append, verdictsBehind, hverdict]
        exact congrArg (select table) (List.append_nil _)
      rw [hsame] at h
      obtain ⟨front, m, back, rfl, hfirst, hrefused⟩ := ih h
      exact ⟨front, m, back ++ [result], by simp, hfirst, hrefused⟩
    · obtain ⟨rfl, hfirst⟩ := verdict_eq_ok_iff.mp hverdict
      -- a message is added, and only its own refusal is a new fault
      have hadd : choose table (results ++ [.ok m]) = (choose table results).add m := by
        rw [choose_append, verdictsBehind, hverdict, select_append]
        rfl
      rw [hadd] at h
      cases hrefusal : (choose table results).refusal? m with
      | none =>
        rw [Selection.add_of_kept hrefusal] at h
        obtain ⟨front, m', back, rfl, hfirst', hrefused⟩ := ih h
        exact ⟨front, m', back ++ [.ok m], by simp, hfirst', hrefused⟩
      | some fault' =>
        rw [Selection.add_of_refused hrefusal] at h
        rcases List.mem_append.mp h with h | h
        · obtain ⟨front, m', back, rfl, hfirst', hrefused⟩ := ih h
          exact ⟨front, m', back ++ [.ok m], by simp, hfirst', hrefused⟩
        · obtain rfl := List.mem_singleton.mp h
          exact ⟨results, m, [], rfl, hfirst, hrefusal⟩

/-- What is reported of a document is what rejects its elements. -/
theorem mem_faults_iff {name : String} {workers : Nat} :
    fault ∈ (ofElement name root workers).faults ++
        (select table (ofElement name root workers).messages).faults ↔
      ∃ i j, RejectedAt table root i j fault := by
  constructor
  · intro h
    rcases List.mem_append.mp h with h | h
    · obtain ⟨n, hn⟩ := List.mem_iff_getElem?.mp h
      obtain ⟨i, j, hreported⟩ := exists_reportedAt hn
      exact ⟨i, j, .inDocument hreported⟩
    · rw [select_messages] at h
      obtain ⟨front, m, back, hresults, hfirst, hrefused⟩ := exists_of_mem_faults_choose h
      obtain ⟨i, j, e, hplace, hdefined, hfront⟩ := exists_place_of_messageResults hresults
      refine ⟨i, j, .inRun hplace hdefined ?_ ?_⟩
      · rwa [hfront]
      · rwa [hfront]
  · rintro ⟨i, j, h⟩
    exact h.mem_faults name workers

/-- The same messages of a document are listed without a rejected element exactly if it hides no
other. -/
theorem kept_without_eq_iff (h : RejectedAt table root i j fault) (name : String)
    (workers workers' : Nat) :
    (select table (ofElement name root workers).messages).kept =
        (select table (ofElement name (root.without i j) workers').messages).kept ↔
      ¬ Hides table root i j := by
  constructor
  · intro hkept hhides
    obtain ⟨e, m, m', between, behind, hplace, hdefined, hfirst, hrefused, hnext, hid, hfree,
      hchosen⟩ := h.exists_of_hides hhides
    obtain ⟨hwith, hwithout⟩ := messageResults_eq hplace
    rw [select_messages, select_messages, hwith, hwithout, hdefined, hnext] at hkept
    -- the hidden message is kept without the element, and not with it
    have hnotMem := notMem_kept_choose behind hfirst hid hfree hrefused
    rw [hkept, ← List.append_assoc] at hnotMem
    refine hnotMem (mem_kept_choose ?_ hchosen)
    rw [hid, holder?_append, hfirst, hfree]
    rfl
  · intro hhides
    exact (select_without h hhides name workers workers').1.1

end Dialect.Run

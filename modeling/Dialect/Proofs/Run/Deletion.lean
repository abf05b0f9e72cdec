import Dialect.Proofs.Run.Progress
import Dialect.Proofs.Run.Rejection
import Dialect.Proofs.Run.Sources

/-!
# Deleting a rejected element

When a rejected element has been deleted from its document, a run makes the same changes as before
and gives the same report but for the faults of that document (`generate_without`). There is one
exception, an element that hides another: it costs a message that nothing is wrong with, so other
messages are listed without it.
-/

namespace Dialect.Run

open Dialect.Files (Action Path.parts Tree resolve)
open Dialect.Schema (Document Fault Table)
open Dialect.Schema.Document (ofElement ofElement_eq_of_unlined)

variable {o : Options} {table : Table} {front back : List Source} {s s' : Source}

/-- The report with other faults for one of its documents. -/
def Report.withFaults (r : Report) (n : Nat) (faults : List Fault) : Report :=
  { r with documents := r.documents.modify n fun d => { d with faults } }

/-- Changing a member of a list leaves what is in front of it and behind it. -/
theorem modify_append_cons {α : Type} (front : List α) (a : α) (back : List α) (f : α → α) :
    (front ++ a :: back).modify front.length f = front ++ f a :: back := by
  induction front with
  | nil => rfl
  | cons other rest ih =>
    rw [List.cons_append, List.length_cons, List.modify_succ_cons, ih, List.cons_append]

/-- The report on a document that can be read has the faults of the document, then those of the
choice among its messages. -/
theorem exists_report_append_cons (back : List Source) {document : Document}
    (h : s.compile 1 = .ok document) :
    ∃ d, (outcome o (front ++ s :: back)).1.documents[front.length]? = some d ∧
      d.faults =
        document.faults ++ (select (progress o {} front).table document.messages).faults := by
  have hlength : (progress o {} front).reports.length = front.length := length_reports front
  simp only [outcome_eq, progress_append, progress_cons, step_of_compile h, Progress.andThen,
    ← hlength, List.singleton_append]
  rw [List.getElem?_append_right (Nat.le_refl _), Nat.sub_self]
  exact ⟨_, rfl, rfl⟩

/-- What becomes of a source is settled by the messages of its document that are chosen, the ids
that are then taken, and its enumerations; the faults say only why. -/
theorem step_withFaults {document document' : Document} (h : s.compile 1 = .ok document)
    (h' : s'.compile 1 = .ok document') (hname : s'.name = s.name) (hpath : s'.path = s.path)
    (hchosen : (select table document.messages).Alike (select table document'.messages))
    (henumerations : document'.enumerations = document.enumerations) :
    ∃ d faults actions table', step o table s = ⟨[d], table', actions⟩ ∧
      step o table s' = ⟨[{ d with faults }], table', actions⟩ := by
  rw [step_of_compile h, step_of_compile h']
  simp only [hname, hpath, henumerations, hchosen.1, hchosen.2]
  exact ⟨_, _, _, _, rfl, rfl⟩

/-- A source in the place of another that differs from it in its faults changes the report in these
faults. -/
theorem outcome_append_cons (back : List Source) {d : DocumentReport} {faults : List Fault}
    {table' : Table} {actions : List Action}
    (hs : step o (progress o {} front).table s = ⟨[d], table', actions⟩)
    (hs' : step o (progress o {} front).table s' = ⟨[{ d with faults }], table', actions⟩) :
    outcome o (front ++ s' :: back) =
      ((outcome o (front ++ s :: back)).1.withFaults front.length faults,
        (outcome o (front ++ s :: back)).2) := by
  have hlength : (progress o {} front).reports.length = front.length := length_reports front
  simp only [outcome_eq, progress_append, progress_cons, hs, hs', Progress.andThen,
    Report.withFaults, List.singleton_append, ← hlength, modify_append_cons]

/-- **A rejected element leaves no trace but one.** Of a document `s` that a run can read, the run
reports exactly what rejects the elements of the document. Without a rejected element the same
messages of its document are chosen exactly if it hides no other, and only a message that loses for
its file can hide one. If the element hides none, the run succeeds without it: for every document,
the same messages and as many enumerations are listed, the table is the same, and so are all changes
that the run makes, so every file and directory but the document itself is the same after it. -/
theorem generate_without {t t' after : Tree} {report : Report} {text text' : String}
    {root root' : Markup.Element} {i j : Nat} {fault : Fault} {bytes : List UInt8}
    (hwell : t.WellFormed) (hsources : readSources t o.schemaDirectory = .ok (front ++ s :: back))
    (htext : s.text = .ok text) (hroot : Markup.parse text = .ok root)
    (hrun : generate o t = (after, .ok report))
    (hrejected : RejectedAt (progress o {} front).table root i j fault)
    (hedit : t.write s.path bytes = .ok t') (htext' : decodeText bytes = .ok text')
    (hroot' : Markup.parse text' = .ok root')
    (hwithout : root'.unlined = (root.without i j).unlined) :
    (∃ d, report.documents[front.length]? = some d ∧
        ∀ fault, fault ∈ d.faults ↔ ∃ i j, RejectedAt (progress o {} front).table root i j fault) ∧
      ((select (progress o {} front).table (ofElement s.name root 1).messages).kept =
          (select (progress o {} front).table (ofElement s.name root' 1).messages).kept ↔
        ¬ Hides (progress o {} front).table root i j) ∧
      (Hides (progress o {} front).table root i j →
        ∃ message existing file, fault = .artifactCollision message existing file) ∧
      (¬ Hides (progress o {} front).table root i j → ∃ after' faults,
        generate o t' = (after', .ok (report.withFaults front.length faults)) ∧
          (outcome o (front ++ { s with text := .ok text' } :: back)).2 =
            (outcome o (front ++ s :: back)).2 ∧
          ∀ l, l ≠ resolve [] (Path.parts s.path) → after.node? l = after'.node? l) := by
  obtain ⟨sources, hread, hreport, hperform⟩ := generate_eq_ok_iff.mp hrun
  obtain rfl : sources = front ++ s :: back := Except.ok.inj (hread.symm.trans hsources)
  have hcompile : s.compile 1 = .ok (ofElement s.name root 1) :=
    Source.compile_eq_ok_iff.mpr ⟨text, root, htext, hroot, rfl⟩
  -- the edited document defines what the tree without the element does
  have hedited : ofElement s.name (root.without i j) 1 = ofElement s.name root' 1 :=
    ofElement_eq_of_unlined s.name hwithout.symm 1 1
  refine ⟨?_, ?_, fun hhides => hhides.fault_eq hrejected, fun hhides => ?_⟩
  · obtain ⟨d, hd, hfaults⟩ := exists_report_append_cons back hcompile
    refine ⟨d, hreport ▸ hd, fun fault => ?_⟩
    rw [hfaults]
    exact mem_faults_iff
  · rw [← hedited]
    exact kept_without_eq_iff hrejected s.name 1 1
  · obtain ⟨hread', hagree⟩ := readSources_write hwell hsources hedit
    rw [htext'] at hread'
    have hcompile' : ({ s with text := .ok text' } : Source).compile 1 =
        .ok (ofElement s.name (root.without i j) 1) :=
      Source.compile_eq_ok_iff.mpr ⟨text', root', rfl, hroot', hedited⟩
    obtain ⟨hchosen, henumerations⟩ := select_without hrejected hhides s.name 1 1
    obtain ⟨d, faults, actions, table', hs, hs'⟩ :=
      step_withFaults hcompile hcompile' rfl rfl hchosen henumerations
    have houtcome := outcome_append_cons back hs hs'
    obtain ⟨hrefusal, hagree'⟩ := hagree.performAll (outcome o (front ++ s :: back)).2
    rw [hperform] at hrefusal hagree'
    refine ⟨(t'.performAll (outcome o (front ++ s :: back)).2).1, faults, ?_, by rw [houtcome],
      hagree'.elsewhere⟩
    refine generate_eq_ok_iff.mpr ⟨_, hread', by rw [houtcome, hreport], ?_⟩
    rw [houtcome]
    exact Prod.ext rfl hrefusal.symm

/-! ## Runs on one document -/

/-- The tree that a document of messages without fields is read into. -/
def listRoot (items : List (String × String)) : Markup.Element :=
  ⟨"d", [], [⟨"messages", [], items.map fun m => Document.bareMessage m.1 m.2, "", 1⟩], "", 1⟩

/-- Two messages that share a file. -/
def sharingItems : List (String × String) := [("0", "A"), ("1", "a")]

set_option maxRecDepth 8192 in
/-- The tree of the document with both messages. -/
theorem parse_sharingItems :
    Markup.parse (listText sharingItems) = .ok (listRoot sharingItems) := by
  with_unfolding_all rfl

set_option maxRecDepth 8192 in
/-- The tree of the document without the second message. -/
theorem parse_sharingItems_eraseIdx :
    Markup.parse (listText (sharingItems.eraseIdx 1)) =
      .ok ((listRoot sharingItems).without 0 1) := by
  with_unfolding_all rfl

/-- A message that is refused for its file, and the run without it. -/
theorem generate_without_sample :
    ∃ after after' report faults,
      generate plainOptions (schemaTree [("d.xml", listText sharingItems)]) = (after, .ok report) ∧
        report.documents.map (·.faults) = [[.artifactCollision "a" "A" "msg_a.txt"]] ∧
        generate plainOptions ((schemaTree [("d.xml", listText sharingItems)]).put
            ["schemas", "d.xml"]
            (.file (Schema.textBytes (listText (sharingItems.eraseIdx 1))))) =
          (after', .ok (report.withFaults 0 faults)) ∧
        ∀ l, l ≠ ["schemas", "d.xml"] → after.node? l = after'.node? l := by
  have hreport : (generate plainOptions (schemaTree [("d.xml", listText sharingItems)])).2 = .ok
      ⟨[⟨"d", "schemas/d.xml", none, [.artifactCollision "a" "A" "msg_a.txt"], ["A"], 0⟩],
        ⟨[⟨0, "A", 138⟩]⟩⟩ := by
    decide +kernel
  have hwell : (schemaTree [("d.xml", listText sharingItems)]).WellFormed :=
    wellFormed_schemaTree (by decide) (by decide)
  have hsources : readSources (schemaTree [("d.xml", listText sharingItems)])
      plainOptions.schemaDirectory =
        .ok ([] ++ schemaSource "d.xml" (listText sharingItems) :: []) := rfl
  have htext : (schemaSource "d.xml" (listText sharingItems)).text =
      .ok (listText sharingItems) := by
    decide +kernel
  have htext' : decodeText (Schema.textBytes (listText (sharingItems.eraseIdx 1))) =
      .ok (listText (sharingItems.eraseIdx 1)) := by
    decide +kernel
  have hrejected : RejectedAt (progress plainOptions {} []).table (listRoot sharingItems) 0 1
      (.artifactCollision "a" "A" "msg_a.txt") :=
    .inRun ⟨_, rfl, rfl, rfl, rfl⟩ (rfl : Schema.Message.ofElement _ = .ok ⟨1, "a", none, []⟩) rfl
      (by decide +kernel)
  -- nothing follows the message, so it can hide nothing
  have hhides : ¬ Hides (progress plainOptions {} []).table (listRoot sharingItems) 0 1 := by
    rintro ⟨-, -, -, hnext, -, -, -⟩
    have hnil : Schema.Document.messageResultsBehind (listRoot sharingItems) 0 1 = [] := rfl
    rw [hnil] at hnext
    exact absurd hnext.symm (by simp)
  obtain ⟨-, -, -, htrace⟩ :=
    generate_without hwell hsources htext parse_sharingItems
      (Prod.ext rfl hreport) hrejected rfl htext' parse_sharingItems_eraseIdx rfl
  obtain ⟨after', faults, hrun', -, hafter⟩ := htrace hhides
  exact ⟨_, after', _, faults, Prod.ext rfl hreport, rfl, hrun', hafter⟩

/-- Two messages that share a file, and one that has the id of the second. -/
def hidingItems : List (String × String) := [("0", "A"), ("1", "a"), ("1", "B")]

/-- The second message is rejected for its file, and the third for its id; without the second, the
third is listed. -/
theorem generate_hides :
    (generate plainOptions (schemaTree [("d.xml", listText hidingItems)])).2 = .ok
        ⟨[⟨"d", "schemas/d.xml", none,
          [.duplicateId 1 "B" "a", .artifactCollision "a" "A" "msg_a.txt"], ["A"], 0⟩],
          ⟨[⟨0, "A", 138⟩]⟩⟩ ∧
      (generate plainOptions (schemaTree [("d.xml", listText (hidingItems.eraseIdx 1))])).2 = .ok
        ⟨[⟨"d", "schemas/d.xml", none, [], ["A", "B"], 0⟩], ⟨[⟨0, "A", 138⟩, ⟨1, "B", 200⟩]⟩⟩ := by
  constructor
  · decide +kernel
  · decide +kernel

end Dialect.Run

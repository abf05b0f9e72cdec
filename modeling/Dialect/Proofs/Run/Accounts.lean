import Dialect.CommandLine
import Dialect.Proofs.Run.Listings

/-!
# What a run accounts for

A run that succeeds reports on every document that it finds, and every element of a document that
can be read is accounted for: it is listed, or it is reported with a fault (`Source.AccountedBy`).
The table holds the messages that are listed and no others. So a run without faults is one that
listed everything there was (`generate_accounts`), and the exit code says so.
-/

namespace Dialect.Run

open Dialect.Files (Tree)
open Dialect.Markup (Element)
open Dialect.Schema (Enumeration Message Table)
open Dialect.Schema.Document (IsElementCount enumerationElements enumerationResults
  eq_map_ok_of_failures_eq_nil eq_of_verdictsBehind_eq_map_ok failures isElementCount_length
  length_ofElement messageElements messageResults messageVerdicts ofElement ofElement_eq successes)

/-- A report accounts for a source: a source that cannot be read leaves its fault and nothing else,
and of one that can be read there is an answer or a fault for each element, wherever it stands. -/
structure Source.AccountedBy (s : Source) (r : DocumentReport) : Prop where
  name_eq : r.name = s.name
  path_eq : r.path = s.path
  unread : ∀ fault, s.root = .error fault → r = ⟨s.name, s.path, some fault, [], [], 0⟩
  read : ∀ root, s.root = .ok root → r.parseFault = none ∧
    r.messages.length + r.enumerations + r.faults.length =
      (messageElements root).length + (enumerationElements root).length ∧
    IsElementCount root (r.messages.length + r.enumerations + r.faults.length)

/-- A source can be read, and all its elements are well-formed and listed. -/
def Source.IsWhole (s : Source) (r : DocumentReport) : Prop :=
  ∃ (root : Element) (messages : List Message) (enumerations : List Enumeration),
    s.root = .ok root ∧ (messageElements root).map Message.ofElement = messages.map .ok ∧
      r.messages = messages.map Message.name ∧
      (enumerationElements root).map Enumeration.ofElement = enumerations.map .ok ∧
      r.enumerations = enumerations.length

variable {o : Options} {table : Table} {s : Source} {r : DocumentReport} {root : Element}

/-- A document is without faults if it could be read and nothing in it was refused. -/
theorem DocumentReport.faultCount_eq_zero_iff :
    r.faultCount = 0 ↔ r.faults = [] ∧ r.parseFault = none := by
  rw [faultCount]
  cases r.parseFault with
  | none => simp
  | some fault => simp

/-- A run is without faults if all its documents are. -/
theorem Report.faultCount_eq_zero_iff {report : Report} :
    report.faultCount = 0 ↔ ∀ d ∈ report.documents, d.faultCount = 0 := by
  rw [Report.faultCount]
  induction report.documents with
  | nil => simp
  | cons d rest ih => simp [ih]

/-- The number of messages counts those of all documents. -/
theorem Report.messageCount_eq_length (report : Report) :
    report.messageCount = (report.documents.flatMap (·.messages)).length := by
  rw [messageCount]
  induction report.documents with
  | nil => rfl
  | cons d rest ih => rw [List.foldr_cons, ih, List.flatMap_cons, List.length_append]

/-! ## One document -/

/-- A report without faults is one on a source that is listed as a whole. -/
theorem Source.AccountedBy.faultCount_eq_zero (h : s.AccountedBy r) (hwhole : s.IsWhole r) :
    r.faultCount = 0 := by
  obtain ⟨root, messages, enumerations, hroot, hmessages, hnames, hresults, hcount⟩ := hwhole
  obtain ⟨hread, hlength, -⟩ := h.read root hroot
  have hmessagesLength := congrArg List.length hmessages
  have henumerationsLength := congrArg List.length hresults
  simp only [List.length_map] at hmessagesLength henumerationsLength
  refine DocumentReport.faultCount_eq_zero_iff.mpr ⟨List.length_eq_zero_iff.mp ?_, hread⟩
  rw [hnames, List.length_map, hcount] at hlength
  omega

/-- If nothing in a document that can be read leaves a fault, all its elements are listed. -/
theorem exists_of_faults_eq_nil {name : String}
    (h : (ofElement name root 1).faults ++
      (select table (ofElement name root 1).messages).faults = []) :
    ∃ (messages : List Message) (enumerations : List Enumeration),
      messageResults root = messages.map .ok ∧
        (select table (ofElement name root 1).messages).kept.map (·.2) = messages ∧
        enumerationResults root = enumerations.map .ok ∧
        (ofElement name root 1).enumerations = enumerations := by
  obtain ⟨hdocument, hchosen⟩ := List.append_eq_nil_iff.mp h
  rw [ofElement_eq] at hdocument hchosen ⊢
  obtain ⟨hverdicts, henumerations⟩ := List.append_eq_nil_iff.mp hdocument
  refine ⟨successes (messageVerdicts root), successes (enumerationResults root), ?_, ?_, ?_, rfl⟩
  · exact eq_of_verdictsBehind_eq_map_ok (eq_map_ok_of_failures_eq_nil hverdicts)
  · exact Selection.kept_foldl_of_faults_eq_nil hchosen
  · exact eq_map_ok_of_failures_eq_nil henumerations

/-- Of each element of a document that can be read, something is reported: a message that the run
lists, an enumeration, or a fault of the document or of the run. -/
theorem length_reported (name : String) (table : Table) (root : Element) :
    ((select table (ofElement name root 1).messages).kept.map (·.2.name)).length +
        (ofElement name root 1).enumerations.length +
        ((ofElement name root 1).faults ++
          (select table (ofElement name root 1).messages).faults).length =
      (messageElements root).length + (enumerationElements root).length := by
  have helements := length_ofElement name root 1
  have hchosen := length_select table (ofElement name root 1).messages
  rw [List.length_append, List.length_map]
  omega

/-- The report on a source accounts for it, and has no faults exactly if the source is listed as a
whole. -/
theorem exists_reports_step (o : Options) (table : Table) (s : Source) :
    ∃ r, (step o table s).reports = [r] ∧ s.AccountedBy r ∧ (r.faultCount = 0 ↔ s.IsWhole r) := by
  have hcompile := s.compile_eq_map
  rcases hroot : s.root with fault | root
  · rw [hroot] at hcompile
    rw [step_of_fault hcompile]
    -- a source that is no document has its fault on the report, and nothing else
    have haccounted : s.AccountedBy ⟨s.name, s.path, some fault, [], [], 0⟩ := by
      refine ⟨rfl, rfl, fun other hother => ?_, fun root hother => ?_⟩
      · rw [Except.error.inj (hroot.symm.trans hother)]
      · rw [hroot] at hother
        exact absurd hother (by simp)
    exact ⟨_, rfl, haccounted, fun h => absurd h (by simp [DocumentReport.faultCount]),
      haccounted.faultCount_eq_zero⟩
  · rw [hroot] at hcompile
    rw [step_of_compile hcompile]
    -- a document has the faults that its elements had, and then those of its messages in the run
    have haccounted : s.AccountedBy (⟨s.name, s.path, none,
        (ofElement s.name root 1).faults ++
          (select table (ofElement s.name root 1).messages).faults,
        (select table (ofElement s.name root 1).messages).kept.map (·.2.name),
        (ofElement s.name root 1).enumerations.length⟩) := by
      refine ⟨rfl, rfl, fun fault hother => ?_, fun other hother => ⟨rfl, ?_⟩⟩
      · rw [hroot] at hother
        exact absurd hother (by simp)
      · obtain rfl := Except.ok.inj (hroot.symm.trans hother)
        have hcount := length_reported s.name table root
        refine ⟨hcount, ?_⟩
        simp only [hcount]
        exact isElementCount_length root
    refine ⟨_, rfl, haccounted, fun h => ?_, haccounted.faultCount_eq_zero⟩
    -- with no faults every verdict is a message, and every message is kept
    obtain ⟨messages, enumerations, hmessages, hkept, hresults, henumerations⟩ :=
      exists_of_faults_eq_nil (DocumentReport.faultCount_eq_zero_iff.mp h).1
    refine ⟨root, messages, enumerations, hroot, hmessages, ?_, hresults,
      congrArg List.length henumerations⟩
    rw [← hkept, List.map_map]
    rfl

/-! ## All documents -/

/-- The reports of a run account for its sources, one by one. -/
theorem forall₂_reports (o : Options) (table : Table) (sources : List Source) :
    List.Forall₂ (fun s r => s.AccountedBy r ∧ (r.faultCount = 0 ↔ s.IsWhole r)) sources
      (progress o table sources).reports := by
  induction sources generalizing table with
  | nil => exact .nil
  | cons s rest ih =>
    obtain ⟨r, hreports, hr⟩ := exists_reports_step o table s
    rw [progress_cons, Progress.andThen, hreports]
    exact .cons hr (ih _)

/-- There are no faults exactly if every source is listed as a whole. -/
theorem forall₂_isWhole_iff {sources : List Source} {reports : List DocumentReport}
    (h : List.Forall₂ (fun s r => s.AccountedBy r ∧ (r.faultCount = 0 ↔ s.IsWhole r)) sources
      reports) :
    (∀ r ∈ reports, r.faultCount = 0) ↔ List.Forall₂ Source.IsWhole sources reports := by
  induction h with
  | nil => simp
  | cons hr _ ih => rw [List.forall_mem_cons, List.forall₂_cons, ih, hr.2]

/-- The messages that a run lists, in order. -/
def listedMessages (sources : List Source) : List Message :=
  (listed {} sources).flatMap fun d => d.kept.map (·.2)

/-- The table of a run holds the messages that are listed, and there are as many as the reports
count. -/
theorem table_outcome (o : Options) (sources : List Source) :
    (outcome o sources).1.table.slots = (listedMessages sources).map Message.slot ∧
      (outcome o sources).1.table.Lawful ∧
      (outcome o sources).1.messageCount = (listedMessages sources).length := by
  obtain ⟨hslots, hlawful⟩ := slots_progress (o := o) Schema.Table.lawful_empty sources
  rw [outcome_eq]
  refine ⟨?_, hlawful, ?_⟩
  · rw [hslots, listedMessages, List.map_flatMap]
    simp only [List.map_map]
    rfl
  · rw [Report.messageCount_eq_length, messages_progress, listedMessages]
    simp only [List.length_flatMap, List.length_map]

/-- The paths of the sources are those of the reports. -/
theorem paths_outcome (o : Options) (sources : List Source) :
    (outcome o sources).1.documents.map (·.path) = sources.map Source.path := by
  rw [outcome_eq, eq_comm, ← List.forall₂_eq_eq_eq, List.forall₂_map_left_iff,
    List.forall₂_map_right_iff]
  exact (forall₂_reports o {} sources).imp fun s r hr => hr.1.path_eq.symm

/-- The program ends with exit code zero exactly if its run leaves no faults. -/
theorem code_run_eq_zero_iff {t after : Tree} {report : Report} {arguments : List String}
    (hrun : generate o t = (after, .ok report))
    (hrequest : CommandLine.request arguments = .generate o) :
    (CommandLine.run arguments t).2.code = 0 ↔ report.faultCount = 0 := by
  rw [CommandLine.run, hrequest]
  simp only [hrun, CommandLine.Outcome.ofReport]
  split
  · next hnone => exact ⟨fun _ => hnone, fun _ => rfl⟩
  · next hsome => exact ⟨fun h => absurd h (by decide), fun h => absurd h hsome⟩

/-- **A run accounts for everything.** The reports of a run that succeeds are those on the documents
that are found, one on each, in the order of their paths. Each accounts for its document. The files
of the messages that are listed for one document are distinct. The slots of the table that are
filled are those of all messages that are listed, each once, and no two of these have the same id;
so there are as many messages as slots. There are no faults exactly if every document can be read
and all of its elements are well-formed and listed, and this is when the program ends with exit code
zero. -/
theorem generate_accounts {t after : Tree} {report : Report} (hwell : t.WellFormed)
    (hrun : generate o t = (after, .ok report)) :
    discover t o.schemaDirectory = .ok (report.documents.map (·.path)) ∧
      (report.documents.map (·.path)).Pairwise (· < ·) ∧
      ∃ sources, readSources t o.schemaDirectory = .ok sources ∧
        List.Forall₂ Source.AccountedBy sources report.documents ∧
        (report.documents.filter (·.parseFault.isNone)).map (fun r => (r.name, r.messages)) =
          (listed {} sources).map (fun d => (d.name, d.kept.map (·.2.name))) ∧
        (∀ d ∈ listed {} sources, (d.kept.map fun k => listingFile k.2).Nodup) ∧
        report.table.entries.Perm
          ((listedMessages sources).map fun m => ⟨m.id, m.name, m.code⟩) ∧
        ((listedMessages sources).map Message.id).Nodup ∧
        report.messageCount = report.table.count ∧
        (report.faultCount = 0 ↔ List.Forall₂ Source.IsWhole sources report.documents) ∧
        ∀ arguments, CommandLine.request arguments = .generate o →
          ((CommandLine.run arguments t).2.code = 0 ↔ report.faultCount = 0) := by
  obtain ⟨sources, hsources, rfl, -⟩ := generate_eq_ok_iff.mp hrun
  -- the table has the slots of the listed messages, and what is said of ids and slots is said there
  obtain ⟨hslots, hlawful, hcount⟩ := table_outcome o sources
  have hfound := discover_of_readSources hsources
  rw [← paths_outcome o sources] at hfound
  -- source by source, its report accounts for it
  have hreports : List.Forall₂ (fun s r => s.AccountedBy r ∧ (r.faultCount = 0 ↔ s.IsWhole r))
      sources (outcome o sources).1.documents := by
    rw [outcome_eq]
    exact forall₂_reports o {} sources
  refine ⟨hfound, ?_, sources, hsources, hreports.imp fun _ _ hr => hr.1, ?_, fun d hd => ?_, ?_,
    ?_, ?_, ?_, fun arguments hrequest => code_run_eq_zero_iff hrun hrequest⟩
  · obtain ⟨names, hnames, -⟩ := readSources_eq_ok_iff.mp hsources
    exact pairwise_discover hwell hnames hfound
  · have hnames := congrArg (List.map fun p => (p.1, p.2.1)) (reports_progress o {} sources)
    rw [List.map_map, List.map_map] at hnames
    rw [outcome_eq]
    exact hnames
  · obtain ⟨-, hfiles, hnodup⟩ := kept_of_mem_listed hd
    rwa [List.map_congr_left hfiles] at hnodup
  · have hentries := hlawful.entries_perm
    rw [hslots] at hentries
    exact hentries
  · have hnodup := hlawful.nodup
    rw [hslots, List.map_map] at hnodup
    exact hnodup
  · rw [hcount, Schema.Table.count, hslots, List.length_map]
  · rw [Report.faultCount_eq_zero_iff]
    exact forall₂_isWhole_iff hreports

/-- Two messages that define one id. -/
def rivalItems : List (String × String) := [("7", "A"), ("7", "B")]

/-- A document of two messages that define one id: one is listed, and one is reported. -/
theorem generate_accounts_sample :
    ∃ after report,
      generate plainOptions (schemaTree [("d.xml", listText rivalItems)]) = (after, .ok report) ∧
        discover (schemaTree [("d.xml", listText rivalItems)]) "schemas" = .ok ["schemas/d.xml"] ∧
        report.documents.map (·.messages) = [["A"]] ∧
        report.table.entries.Perm [⟨7, "A", 138⟩] ∧ report.messageCount = 1 ∧
        report.faultCount = 1 ∧
        (CommandLine.run ["schemas", "out", "-w", "1"]
          (schemaTree [("d.xml", listText rivalItems)])).2.code ≠ 0 := by
  have hreport : (generate plainOptions (schemaTree [("d.xml", listText rivalItems)])).2 = .ok
      ⟨[⟨"d", "schemas/d.xml", none, [.duplicateId 7 "B" "A"], ["A"], 0⟩], ⟨[⟨7, "A", 138⟩]⟩⟩ := by
    decide +kernel
  have hrequest : CommandLine.request ["schemas", "out", "-w", "1"] = .generate plainOptions := by
    decide +kernel
  obtain ⟨hfound, -, sources, -, -, -, -, -, -, hcount, -, hcode⟩ :=
    generate_accounts (wellFormed_schemaTree (by decide) (by decide)) (eq_mk_of_snd_eq hreport)
  refine ⟨_, _, eq_mk_of_snd_eq hreport, hfound, rfl, ?_, hcount, rfl, ?_⟩
  · exact .of_eq (by decide +kernel)
  · exact mt (hcode _ hrequest).mp (by decide)

end Dialect.Run

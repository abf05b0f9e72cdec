import Dialect.Proofs.Outcome
import Dialect.Proofs.Schema.Lines
import Dialect.Proofs.Files.Tree
import Dialect.Run.Generate

/-!
# Runs, document by document

A run goes through its documents in order, and what becomes of one depends on those in front of it
only by the table they leave behind. So a run over some documents and then over others is two runs
put together (`progress_append`), and the number of workers does not matter (`outcome_eq`).
-/

namespace Dialect.Run

open Dialect.Files (Action Refusal Tree)
open Dialect.Schema (Document Table)

variable {o : Options} {table : Table} {s : Source} {document : Document}

/-- Documents are compiled the same by any number of workers. -/
theorem Source.compile_eq (workers : Nat) : s.compile workers = s.compile 1 := by
  simp only [compile, Document.ofSource,
    Document.ofElement_eq_of_unlined s.name rfl workers 1]

/-- The root of a source that can be read. -/
def Source.root (s : Source) : Except Markup.Fault Markup.Element := s.text >>= Markup.parse

/-- A source is compiled from its tree, and the number of workers has no part in it. -/
theorem Source.compile_eq_map (s : Source) :
    s.compile 1 = s.root.map fun root => Document.ofElement s.name root 1 := by
  rw [compile, root]
  rcases s.text with fault | text
  · rfl
  · simp only [Document.ofSource, bind, Except.bind]
    rcases Markup.parse text with fault | root
    · rfl
    · rfl

/-- A source that compiles has a text, which has a tree. -/
theorem Source.compile_eq_ok_iff :
    s.compile 1 = .ok document ↔
      ∃ text root, s.text = .ok text ∧ Markup.parse text = .ok root ∧
        document = Document.ofElement s.name root 1 := by
  rw [compile, bind_eq_ok_iff]
  constructor
  · rintro ⟨text, htext, hdocument⟩
    obtain ⟨root, hroot, hdocument⟩ := bind_eq_ok_iff.mp hdocument
    exact ⟨text, root, htext, hroot, (Except.ok.inj hdocument).symm⟩
  · rintro ⟨text, root, htext, hroot, rfl⟩
    exact ⟨text, htext, bind_eq_ok_iff.mpr ⟨root, hroot, rfl⟩⟩

/-! ## Progress -/

/-- What becomes of some sources when the ids of a table are taken. -/
def progress (o : Options) (table : Table) (sources : List Source) : Progress :=
  sources.foldl (fun p s => p.add o (s, s.compile 1)) ⟨[], table, []⟩

/-- What became of some documents, and then of others. -/
def Progress.andThen (p q : Progress) : Progress :=
  ⟨p.reports ++ q.reports, q.table, p.actions ++ q.actions⟩

/-- What becomes of one source when the ids of a table are taken. -/
def step (o : Options) (table : Table) (s : Source) : Progress :=
  Progress.add o ⟨[], table, []⟩ (s, s.compile 1)

/-- Adding one source goes on from the table that there is. -/
theorem Progress.add_eq (p : Progress) :
    p.add o (s, s.compile 1) = p.andThen (step o p.table s) := by
  cases hcompile : s.compile 1 with
  | error fault => simp [step, hcompile, add, andThen]
  | ok document => simp [step, hcompile, add, andThen]

/-- Steps of a run come to the same however they are grouped. -/
theorem Progress.andThen_assoc (p q r : Progress) :
    (p.andThen q).andThen r = p.andThen (q.andThen r) := by
  simp [andThen]

/-- Adding sources one by one goes on from the table that there is. -/
theorem Progress.foldl_add (p : Progress) (sources : List Source) :
    sources.foldl (fun p s => p.add o (s, s.compile 1)) p =
      p.andThen (progress o p.table sources) := by
  induction sources generalizing p with
  | nil => simp [progress, andThen]
  | cons s rest ih =>
    rw [progress, List.foldl_cons, List.foldl_cons, ih, ih, add_eq, add_eq, andThen_assoc]
    simp [andThen]

/-- Some sources and then others are worked through in two parts, the second with the table of the
first. -/
theorem progress_append (front back : List Source) :
    progress o table (front ++ back) =
      (progress o table front).andThen (progress o (progress o table front).table back) := by
  rw [progress, List.foldl_append, Progress.foldl_add]
  rfl

/-- Sources are worked through one by one, each with the table behind those in front of it. -/
theorem progress_cons (back : List Source) :
    progress o table (s :: back) =
      (step o table s).andThen (progress o (step o table s).table back) := by
  rw [progress, List.foldl_cons, Progress.foldl_add]
  rfl

/-- There is one report on one source. -/
theorem length_reports_step : (step o table s).reports.length = 1 := by
  cases hcompile : s.compile 1 with
  | error fault => simp [step, hcompile, Progress.add]
  | ok document => simp [step, hcompile, Progress.add]

/-- There is a report on each source. -/
theorem length_reports (sources : List Source) :
    (progress o table sources).reports.length = sources.length := by
  induction sources generalizing table with
  | nil => rfl
  | cons s rest ih =>
    rw [progress_cons, Progress.andThen, List.length_append, length_reports_step, ih,
      List.length_cons, Nat.add_comm]

/-- A document that can be read is listed. -/
theorem step_of_compile (h : s.compile 1 = .ok document) :
    step o table s =
      let chosen := select table document.messages
      ⟨[⟨s.name, s.path, none, document.faults ++ chosen.faults, chosen.kept.map (·.2.name),
        document.enumerations.length⟩], chosen.table,
        documentActions o s.name chosen.kept document.enumerations⟩ := by
  simp [step, h, Progress.add]

/-- A document that cannot be read leaves a report and nothing else. -/
theorem step_of_fault {fault : Markup.Fault} (h : s.compile 1 = .error fault) :
    step o table s = ⟨[⟨s.name, s.path, some fault, [], [], 0⟩], table, []⟩ := by
  simp [step, h, Progress.add]

/-! ## Runs -/

/-- What a run settles on does not depend on how its work is shared out. -/
theorem outcome_eq (o : Options) (sources : List Source) :
    outcome o sources =
      let p := progress o {} sources
      (⟨p.reports, p.table⟩, p.actions ++ summaryActions o p.table) := by
  rw [outcome, compileAll, Work.fanOut_eq_map, List.foldl_map]
  simp only [Source.compile_eq (workersEach o.workers sources.length)]
  rfl

/-- When the sources have been read, a run performs the changes it settles on. -/
theorem generate_of_readSources {t : Tree} {sources : List Source}
    (h : readSources t o.schemaDirectory = .ok sources) :
    generate o t = ((t.performAll (outcome o sources).2).1,
      match (t.performAll (outcome o sources).2).2 with
      | none => .ok (outcome o sources).1
      | some refusal => .error refusal) := by
  rw [generate, h]
  rcases hrun : t.performAll (outcome o sources).2 with ⟨after, _ | refusal⟩
  · simp only [hrun]
  · simp only [hrun]

/-- A run succeeds exactly if its sources can be read and all it settled on can be done. -/
theorem generate_eq_ok_iff {t after : Tree} {report : Report} :
    generate o t = (after, .ok report) ↔
      ∃ sources, readSources t o.schemaDirectory = .ok sources ∧
        (outcome o sources).1 = report ∧ t.performAll (outcome o sources).2 = (after, none) := by
  rw [generate]
  cases readSources t o.schemaDirectory with
  | error refusal => simp
  | ok sources =>
    simp only [Except.ok.injEq, exists_eq_left']
    rcases t.performAll (outcome o sources).2 with ⟨u, _ | refusal⟩
    · simp [and_comm]
    · simp

end Dialect.Run

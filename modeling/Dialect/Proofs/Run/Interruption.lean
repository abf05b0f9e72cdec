import Dialect.Proofs.Files.Moment
import Dialect.Proofs.Run.Listings

/-!
# Runs that are stopped

The files that a run puts, and their order, are known when the sources have been read (`writes`). A
run that is stopped, by a refusal or for any other reason, has put the first of them and none of the
others, and nothing is left of the one at which it was stopped (`generate_all_or_nothing`). So a
file holds what the last of these has put there, as a whole, or what it held before the run.
-/

namespace Dialect.Run

open Dialect.Files (Action Folder Moment Tree)

/-- The files that a run puts, in order: of each document that it can read those of its messages and
then that of its enumerations, and at last those that are written once. -/
def writes (o : Options) (sources : List Source) : List Action :=
  (folders o sources).flatMap (Folder.writes o.outputDirectory)

variable {o : Options} {t : Tree} {sources : List Source} {s : Source}

/-- What a folder writes are the changes to it that are no directories. -/
theorem filter_isWrite_actions (path : String) (f : Folder) :
    (f.actions path).filter Action.isWrite = f.writes path := by
  rw [Folder.actions, List.filter_cons_of_neg (by simp [Action.isWrite]), List.filter_eq_self]
  intro action haction
  obtain ⟨e, -, rfl⟩ := List.mem_map.mp haction
  rfl

/-- All other changes of a run make directories. -/
theorem filter_isWrite_outcome (o : Options) (sources : List Source) :
    (outcome o sources).2.filter Action.isWrite = writes o sources := by
  rw [actions_outcome, List.filter_flatMap, writes]
  exact List.flatMap_congr fun f _ => filter_isWrite_actions o.outputDirectory f

/-- A document that cannot be read adds nothing to what a run puts. -/
theorem writes_append_cons {fault : Markup.Fault} (h : s.root = .error fault)
    (front back : List Source) : writes o (front ++ s :: back) = writes o (front ++ back) := by
  have hcompile : s.compile 1 = .error fault := by
    rw [s.compile_eq_map, h]
    rfl
  rw [← filter_isWrite_outcome, ← filter_isWrite_outcome, outcome_eq, outcome_eq]
  simp only [progress_append, progress_cons, step_of_fault hcompile, Progress.andThen,
    List.nil_append]

/-- The sources that have been read are in the order of their paths. -/
theorem pairwise_path (hwell : t.WellFormed)
    (hsources : readSources t o.schemaDirectory = .ok sources) :
    (sources.map Source.path).Pairwise (· < ·) := by
  obtain ⟨names, hnames, -⟩ := readSources_eq_ok_iff.mp hsources
  exact pairwise_discover hwell hnames (discover_of_readSources hsources)

/-- The files that have been put are the first of those to be put. -/
theorem prefix_writes {m : Moment} (h : m.Sound t (outcome o sources).2) :
    m.writes <+: writes o sources ∧ (m.left = [] → m.writes = writes o sources) := by
  rw [← filter_isWrite_outcome, ← h.split, List.filter_append]
  refine ⟨List.prefix_append _ _, fun hleft => ?_⟩
  rw [hleft, List.filter_nil, List.append_nil, Moment.writes]

/-- **A run puts its files one by one, each as a whole or not at all.** A run that cannot list or
read its sources changes nothing. If it can, they are in the order of their paths, those that hold
no document add nothing to what is to be put, and the run ends at a moment of the work on its
changes, which is that at which all are made exactly if there is a report. And given up at any
moment of this work, the run has put the first of its files, and all of them if no change is left; a
file then holds what the last of these at its place has put there, or else what it held before, and
there are no other files. -/
theorem generate_all_or_nothing (hwell : t.WellFormed) :
    (∀ refusal, readSources t o.schemaDirectory = .error refusal →
      generate o t = (t, .error refusal)) ∧
    ∀ sources, readSources t o.schemaDirectory = .ok sources →
      (sources.map Source.path).Pairwise (· < ·) ∧
      (∀ front s back fault, sources = front ++ s :: back → s.root = .error fault →
        writes o sources = writes o (front ++ back)) ∧
      (∃ m, Moment.Reaches t (outcome o sources).2 m ∧ m.stop = (generate o t).1 ∧
        (m.left = [] ↔ ∃ report, (generate o t).2 = .ok report)) ∧
      ∀ m, Moment.Reaches t (outcome o sources).2 m →
        m.writes <+: writes o sources ∧ (m.left = [] → m.writes = writes o sources) ∧
        ∀ k bytes, m.stop.node? k = some (.file bytes) ↔
          (∃ front path back, m.writes = front ++ .write path bytes :: back ∧
            (Action.write path bytes).place? = some k ∧
            ∀ action ∈ back, action.place? ≠ some k) ∨
          t.node? k = some (.file bytes) ∧ ∀ action ∈ m.writes, action.place? ≠ some k := by
  refine ⟨fun refusal hrefusal => by rw [generate, hrefusal], fun sources hsources => ?_⟩
  refine ⟨pairwise_path hwell hsources, ?_, ?_, fun m hm => ?_⟩
  · rintro front s back fault rfl hroot
    exact writes_append_cons hroot front back
  · obtain ⟨m, hm, hstop, hleft⟩ := Moment.exists_reaches t (outcome o sources).2
    rw [generate_of_readSources hsources]
    refine ⟨m, hm, hstop, hleft.trans ?_⟩
    cases (t.performAll (outcome o sources).2).2 with
    | none => simp
    | some refusal => simp
  · obtain ⟨hfront, hall⟩ := prefix_writes hm.sound
    exact ⟨hfront, hall, fun k bytes => hm.node?_stop_iff⟩

/-- A document, and a file in the way of the directory for what is written once for a run. -/
def blockedTree : Tree := schemaTree [("d.xml", listText [("0", "A")]), ("main", "")]

/-- A run that lists documents where they are. -/
def blockedOptions : Options := { plainOptions with outputDirectory := "schemas" }

/-- The file in the way stops the run when the document has been listed. -/
theorem generate_all_or_nothing_sample :
    let sources := [schemaSource "d.xml" (listText [("0", "A")])]
    (writes blockedOptions sources).map Action.place? =
        [some ["schemas", "d", "msg_a.txt"], some ["schemas", "d", "d.enums.txt"],
          some ["schemas", "main", "crc_table.txt"], some ["schemas", "main", "dispatch.txt"]] ∧
      (generate blockedOptions blockedTree).2 = .error ⟨"schemas/main"⟩ ∧
      ∃ m, Moment.Reaches blockedTree (outcome blockedOptions sources).2 m ∧
        m.stop = (generate blockedOptions blockedTree).1 ∧ m.left ≠ [] ∧
        m.writes <+: writes blockedOptions sources := by
  have hwell : blockedTree.WellFormed := wellFormed_schemaTree (by decide) (by decide)
  have hsources : readSources blockedTree blockedOptions.schemaDirectory =
      .ok [schemaSource "d.xml" (listText [("0", "A")])] := rfl
  have hrefused : (generate blockedOptions blockedTree).2 = .error ⟨"schemas/main"⟩ := by
    decide +kernel
  obtain ⟨-, hread⟩ := generate_all_or_nothing (o := blockedOptions) hwell
  obtain ⟨-, -, ⟨m, hm, hstop, hleft⟩, hmoments⟩ := hread _ hsources
  refine ⟨by decide +kernel, hrefused, m, hm, hstop, fun hnil => ?_, (hmoments m hm).1⟩
  obtain ⟨report, hreport⟩ := hleft.mp hnil
  exact absurd (hrefused.symm.trans hreport) (by simp)

end Dialect.Run

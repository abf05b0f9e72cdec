import Dialect.Proofs.Run.Progress
import Dialect.Proofs.Run.Sources

/-!
# What a run does not depend on

The order in which a file system lists what there is has no influence on a run, since the sources
are put in order before they are read (`readSources_of_perm`), and neither has the number of
workers, since what they compile is put together in the order of the sources (`outcome_workers`). So
the schema documents settle the report and all that is written (`generate_of_perm`).
-/

namespace Dialect.Run

open Dialect.Files (Tree)
open Dialect.Schema (Document)

variable {o : Options} {t t' : Tree}

/-- The same sources are read, or the same is refused, in whatever order files are listed. -/
theorem readSources_of_perm (hwell : t.WellFormed) (hperm : t.nodes.Perm t'.nodes)
    (directory : String) : readSources t directory = readSources t' directory := by
  have hagree := Tree.agreeBut_of_perm hwell hperm
  have hkeys : t'.keys.Perm t.keys := (hperm.map _).symm
  have hread : ∀ path, t.read? path = t'.read? path := fun _ => hagree.read?_eq fun _ _ => id
  rw [readSources, readSources]
  rcases hnames : t.fileNames? directory with _ | names
  · rcases hnames' : t'.fileNames? directory with _ | names'
    · rfl
    · obtain ⟨names, hsome, -⟩ := hagree.symm.perm_fileNames? hkeys.symm hnames'
      rw [hnames] at hsome
      exact absurd hsome (by simp)
  · obtain ⟨names', hnames', hnamesPerm⟩ := hagree.perm_fileNames? hkeys hnames
    simp only [hnames', schemaNames_of_perm hnamesPerm, hread]

/-- What a run settles on is the same for any number of workers. -/
theorem outcome_workers (workers : Nat) (sources : List Source) :
    outcome { o with workers } sources = outcome o sources := by
  rw [outcome_eq, outcome_eq]
  rfl

/-- **The schema documents settle a run.** Two file systems with the same files and directories,
each listing them in an order of its own, and two numbers of workers, of which any may be zero: both
runs give the same report or are stopped by the same refusal, and leave the same in every place. The
compilation of a document does not depend on the number of workers either. -/
theorem generate_of_perm (hwell : t.WellFormed) (hperm : t.nodes.Perm t'.nodes)
    (workers workers' : Nat) :
    (generate { o with workers } t).2 = (generate { o with workers := workers' } t').2 ∧
      (∀ l, (generate { o with workers } t).1.node? l =
        (generate { o with workers := workers' } t').1.node? l) ∧
      ∀ name root,
        Document.ofElement name root workers = Document.ofElement name root workers' := by
  have hagree := Tree.agreeBut_of_perm hwell hperm
  have hdocument : ∀ name root,
      Document.ofElement name root workers = Document.ofElement name root workers' :=
    fun name root => Document.ofElement_eq_of_unlined name rfl workers workers'
  rw [generate, generate]
  simp only [← readSources_of_perm hwell hperm, outcome_workers]
  -- the same sources are read, so the same changes are made, on trees that agree
  rcases readSources t o.schemaDirectory with refusal | sources
  · exact ⟨rfl, fun l => hagree.elsewhere l id, hdocument⟩
  · obtain ⟨hrefusal, hafter⟩ := hagree.performAll (outcome o sources).2
    rcases hrun : t.performAll (outcome o sources).2 with ⟨after, refusal⟩
    rcases hrun' : t'.performAll (outcome o sources).2 with ⟨after', refusal'⟩
    rw [hrun, hrun'] at hrefusal hafter
    obtain rfl : refusal = refusal' := hrefusal
    simp only [hrun, hrun']
    cases refusal with
    | none => exact ⟨rfl, fun l => hafter.elsewhere l id, hdocument⟩
    | some refusal => exact ⟨rfl, fun l => hafter.elsewhere l id, hdocument⟩

/-- Two documents that define one id, and a file that is no document. -/
def rivalFiles : List (String × String) :=
  [("b.xml", listText [("1", "B")]), ("notes", ""), ("a.xml", listText [("1", "A")])]

/-- The same tree listed in two orders, with one worker and with several. -/
theorem generate_of_perm_sample :
    ∃ after after' report,
      generate { plainOptions with workers := 0 } (schemaTree rivalFiles) = (after, .ok report) ∧
        generate { plainOptions with workers := 3 } ⟨(schemaTree rivalFiles).nodes.reverse⟩ =
          (after', .ok report) ∧
        report.documents.map (·.messages) = [["A"], []] ∧
        ∀ l, after.node? l = after'.node? l := by
  have hreport : (generate { plainOptions with workers := 0 } (schemaTree rivalFiles)).2 = .ok
      ⟨[⟨"a", "schemas/a.xml", none, [], ["A"], 0⟩,
        ⟨"b", "schemas/b.xml", none, [.duplicateId 1 "B" "A"], [], 0⟩], ⟨[⟨1, "A", 138⟩]⟩⟩ := by
    decide +kernel
  have hwell : (schemaTree rivalFiles).WellFormed :=
    wellFormed_schemaTree (by decide) (by decide)
  have hperm : (schemaTree rivalFiles).nodes.Perm
      (Tree.mk (schemaTree rivalFiles).nodes.reverse).nodes :=
    (List.reverse_perm _).symm
  obtain ⟨hsame, hafter, -⟩ := generate_of_perm (o := plainOptions) hwell hperm 0 3
  exact ⟨_, _, _, eq_mk_of_snd_eq hreport, eq_mk_of_snd_eq (hsame.symm.trans hreport), rfl, hafter⟩

end Dialect.Run

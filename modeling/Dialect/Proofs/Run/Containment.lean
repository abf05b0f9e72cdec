import Dialect.Proofs.Files.Containment
import Dialect.Proofs.Run.Refusal

/-!
# Runs and what is outside of their output directory

A run puts its files below its output directory, and leaves alone what is elsewhere, if the names of
its documents and messages do not lead out of it (`Listed.Confined`, `generate_contained`). Names
without slashes do not, but for two dots. Nothing keeps out the names that do (`generate_escapes`).
-/

namespace Dialect.Run

open Dialect.Files (Action Below Folder Location Moment Path.IsEntry Path.join Path.parts Tree
  descend resolve resolve_join resolve_join_of_notMem)

variable {o : Options} {t : Tree} {sources : List Source} {d : Listed} {base l : Location}

/-- Where the output directory of a run is. -/
def output (o : Options) : Location := resolve [] (Path.parts o.outputDirectory)

/-- The names of a document and its messages lead to files below the directory in which the document
is listed, and to no others. -/
structure Listed.Confined (base : Location) (d : Listed) : Prop where
  name_ne : base ≠ [] → d.name ≠ ".."
  prefix_resolve : ∀ k ∈ d.kept,
    base <+: resolve (descend base d.name) (Path.parts (listingFile k.2)).dropLast

/-! ## Names -/

/-- Only two dots lead out of a directory. -/
theorem prefix_descend_iff {name : String} : l <+: descend l name ↔ (l ≠ [] → name ≠ "..") := by
  -- a step leads nowhere, upwards or downwards
  rcases Files.descend_cases l name with ⟨rfl, hd⟩ | ⟨rfl, hd⟩ | hd
  · simp [hd]
  · rw [hd]
    constructor
    · intro hl hne
      have hlength := hl.length_le
      have hpos := List.length_pos_iff.mpr hne
      rw [List.length_dropLast] at hlength
      omega
    · intro hnil
      rw [not_ne_iff.mp fun hne => hnil hne rfl]
      exact List.nil_prefix
  · rw [hd]
    refine iff_of_true (List.prefix_append _ _) fun _ => ?_
    rintro rfl
    rw [descend, if_neg (by decide), if_pos rfl] at hd
    have hlength := congrArg List.length hd
    rw [List.length_dropLast, List.length_append, List.length_singleton] at hlength
    omega

/-- Names without slashes are confined, but for two dots. -/
theorem confined_of_notMem (hname : d.name ≠ "..")
    (hslash : ∀ k ∈ d.kept, '/' ∉ (listingFile k.2).toList) : d.Confined base := by
  refine ⟨fun _ => hname, fun k hk => ?_⟩
  rw [(isPlain_listingFile (hslash k hk)).parts_eq]
  exact prefix_descend_iff.mpr fun _ => hname

/-- A document is confined if the ways to all of its files are. -/
theorem confined_iff_files (hne : d.name ≠ "") (hnotMem : '/' ∉ d.name.toList)
    (hkept : ∀ k ∈ d.kept, k.1 = listingFile k.2) :
    d.Confined (output o) ↔ ∀ e ∈ (d.folder o).files, output o <+:
      resolve (resolve [] (Path.parts (Path.join o.outputDirectory d.name)))
        (Path.parts e.1).dropLast := by
  have hfiles : (∀ e ∈ (d.folder o).files, output o <+:
      resolve (descend (output o) d.name) (Path.parts e.1).dropLast) ↔
      ∀ file ∈ d.files, output o <+:
        resolve (descend (output o) d.name) (Path.parts file).dropLast := by
    rw [← files_folder o, List.forall_mem_map]
  rw [resolve_join_of_notMem hnotMem hne, ← output, hfiles, Listed.files, List.forall_mem_append,
    List.forall_mem_map, List.forall_mem_singleton, (isPlain_enumerationsFile hnotMem).parts_eq]
  constructor
  · rintro ⟨hname, hmessages⟩
    exact ⟨fun k hk => hkept k hk ▸ hmessages k hk, prefix_descend_iff.mpr hname⟩
  · rintro ⟨hmessages, hname⟩
    exact ⟨prefix_descend_iff.mp hname, fun k hk => hkept k hk ▸ hmessages k hk⟩

/-! ## Changes -/

/-- Everything that a run writes is an entry of a directory by its name. -/
theorem isEntry_of_mem_folders (hwell : t.WellFormed)
    (hsources : readSources t o.schemaDirectory = .ok sources) {f : Folder}
    (hf : f ∈ folders o sources) : ∀ e ∈ f.files, Path.IsEntry e.1 := by
  rcases List.mem_append.mp hf with hdocument | hsummary
  · obtain ⟨d, hd, rfl⟩ := List.mem_map.mp hdocument
    intro e he
    exact isEntry_of_mem_files hwell hsources hd (files_folder o d ▸ List.mem_map_of_mem he)
  · rw [List.mem_singleton.mp hsummary]
    exact (proper_summaryFolder _).isEntry

/-- What is written once for a run goes below the output directory. -/
theorem prefix_summaryFolder (table : Schema.Table) :
    ∀ e ∈ (summaryFolder table).files, output o <+:
      resolve (resolve [] (Path.parts (Path.join o.outputDirectory (summaryFolder table).name)))
        (Path.parts e.1).dropLast := by
  have hparts : ∀ file ∈ summaryFiles, (Path.parts file).dropLast = [] := by decide
  intro e he
  have hfile : e.1 ∈ summaryFiles := List.mem_map_of_mem he
  rw [hparts e.1 hfile, resolve_join (proper_summaryFolder table).isPlain]
  exact List.prefix_append _ _

/-- The changes of a run stay within the output directory exactly if its documents are confined. -/
theorem within_outcome_iff (hwell : t.WellFormed)
    (hsources : readSources t o.schemaDirectory = .ok sources) :
    (∀ action ∈ (outcome o sources).2, action.Within (output o)) ↔
      ∀ d ∈ listed {} sources, d.Confined (output o) := by
  have hfolders : ∀ f ∈ folders o sources,
      ((∀ action ∈ f.actions o.outputDirectory, action.Within (output o)) ↔ _) :=
    fun f hf => Folder.within_actions_iff (isEntry_of_mem_folders hwell hsources hf)
  rw [actions_outcome, List.forall_mem_flatMap, forall₂_congr hfolders, folders,
    List.forall_mem_append, List.forall_mem_map, List.forall_mem_singleton,
    and_iff_left (prefix_summaryFolder _)]
  refine forall₂_congr fun d hd => ?_
  obtain ⟨⟨s, hs, hname⟩, hkept, -⟩ := kept_of_mem_listed hd
  obtain ⟨hne, hnotMem⟩ := name_of_readSources hwell hsources hs
  rw [← hname] at hne hnotMem
  exact (confined_iff_files hne hnotMem hkept).symm

/-- The changes of a run stay within a directory exactly if its files go below it. -/
theorem within_outcome_iff_places (hwell : t.WellFormed)
    (hsources : readSources t o.schemaDirectory = .ok sources) :
    (∀ action ∈ (outcome o sources).2, action.Within base) ↔
      ∀ k ∈ places o sources, Below base k := by
  have hplaced : ∀ action ∈ (outcome o sources).2, action.isWrite → action.place?.isSome := by
    intro action haction
    rw [actions_outcome] at haction
    obtain ⟨f, hf, haction⟩ := List.mem_flatMap.mp haction
    exact Folder.isSome_place?_of_mem_actions (isEntry_of_mem_folders hwell hsources hf) haction
  rw [places, forall₂_congr fun action haction => Action.within_iff (hplaced action haction)]
  simp only [List.mem_filterMap]
  constructor
  · rintro h k ⟨action, haction, hplace⟩
    exact h action haction k hplace
  · intro h action haction k hplace
    exact h k ⟨action, haction, hplace⟩

/-- **What is outside is left alone if no name leads out.** A run that cannot list or read its
sources changes nothing. If it can, all of its files go below the output directory exactly if the
names of the documents that it lists, and of their messages, are confined; and names without slashes
are, but for two dots. If all are, the files elsewhere are after the run what they were before; and
no operation of its work, stopped or not, does more elsewhere than to make a directory where there
was nothing. If the run succeeds, there is a file wherever one goes, so that if the names are not
confined it has put a file elsewhere. -/
theorem generate_contained (hwell : t.WellFormed) :
    (∀ refusal, readSources t o.schemaDirectory = .error refusal →
      generate o t = (t, .error refusal)) ∧
    ∀ sources, readSources t o.schemaDirectory = .ok sources →
      ((∀ d ∈ listed {} sources, d.Confined (output o)) ↔
        ∀ k ∈ places o sources, Below (output o) k) ∧
      (∀ d ∈ listed {} sources, d.name ≠ ".." → (∀ k ∈ d.kept, '/' ∉ (listingFile k.2).toList) →
        d.Confined (output o)) ∧
      ((∀ d ∈ listed {} sources, d.Confined (output o)) →
        (∀ k, ¬ Below (output o) k → (generate o t).1.file? k = t.file? k) ∧
        ∀ m, Moment.Reaches t (outcome o sources).2 m →
          t.SameOutside (output o) m.tree ∧ t.SameOutside (output o) m.stop) ∧
      ∀ after report, generate o t = (after, .ok report) →
        ∀ k ∈ places o sources, ∃ bytes, after.node? k = some (.file bytes) := by
  refine ⟨fun refusal hrefusal => by rw [generate, hrefusal], fun sources hsources => ?_⟩
  have hconfined := within_outcome_iff hwell hsources
  refine ⟨hconfined.symm.trans (within_outcome_iff_places hwell hsources),
    fun d _ => confined_of_notMem, fun hall => ⟨fun k hk => ?_, fun m hm => ?_⟩,
    fun after report hrun k hk => ?_⟩
  · obtain ⟨m, hm, hstop, -⟩ := Moment.exists_reaches t (outcome o sources).2
    have hsame := (hm.contained (hconfined.mpr hall)).sameOutside_stop
    rw [hstop] at hsame
    rw [generate_of_readSources hsources]
    exact hsame.file?_eq hk
  · have hcontained := hm.contained (hconfined.mpr hall)
    exact ⟨hcontained.outside, hcontained.sameOutside_stop⟩
  · obtain ⟨read, hread, -, hperform⟩ := generate_eq_ok_iff.mp hrun
    obtain rfl : read = sources := Except.ok.inj (hread.symm.trans hsources)
    obtain ⟨action, haction, hplace⟩ := List.mem_filterMap.mp hk
    exact Tree.exists_file_of_performAll hperform haction hplace

/-- A document is listed, and a file elsewhere with the name of a listing stays as it is. -/
theorem generate_contained_sample :
    let t := schemaTree [("d.xml", listText [("0", "A")]), ("msg_a.txt", "mine")]
    ∃ after report, generate plainOptions t = (after, .ok report) ∧
      (∀ k, ¬ Below ["out"] k → after.file? k = t.file? k) ∧
      ∃ bytes, after.node? ["out", "d", "msg_a.txt"] = some (.file bytes) := by
  intro t
  have hwell : t.WellFormed := wellFormed_schemaTree (by decide) (by decide)
  have hsources : readSources t plainOptions.schemaDirectory =
      .ok [schemaSource "d.xml" (listText [("0", "A")])] := rfl
  have hlisted : listed {} [schemaSource "d.xml" (listText [("0", "A")])] =
      [⟨"d", [("msg_a.txt", ⟨0, "A", none, []⟩)], []⟩] := by
    decide +kernel
  have hreport : (generate plainOptions t).2 =
      .ok ⟨[⟨"d", "schemas/d.xml", none, [], ["A"], 0⟩], ⟨[⟨0, "A", 138⟩]⟩⟩ := by
    decide +kernel
  have hplace : ["out", "d", "msg_a.txt"] ∈
      places plainOptions [schemaSource "d.xml" (listText [("0", "A")])] := by
    decide +kernel
  obtain ⟨-, hread⟩ := generate_contained (o := plainOptions) hwell
  obtain ⟨-, hnames, hsame, hfiles⟩ := hread _ hsources
  rw [hlisted, List.forall_mem_singleton] at hnames hsame
  obtain ⟨hsame, -⟩ := hsame (hnames (by decide) (by decide))
  have hrun : generate plainOptions t = (_, .ok _) := Prod.ext rfl hreport
  exact ⟨_, _, hrun, hsame, hfiles _ _ hrun _ hplace⟩

/-- A document whose name is two dots when the ending is off, and a file beside the directory that
is to be written. -/
def dotsTree : Tree :=
  ((schemaTree [("...xml", listText [("0", "A")])]).put ["out"] .directory).put
    ["out", "msg_a.txt"] (.file (Schema.textBytes "mine"))

/-- A run that writes into a directory of the one that the file is in. -/
def innerOptions : Options := { plainOptions with outputDirectory := "out/inner" }

/-- A message whose name leads out of the output directory, through a directory that is there. -/
def slashesTree : Tree :=
  (((schemaTree [("d.xml", listText [("0", "a/../../../b")])]).put ["out"] .directory).put
    ["out", "d"] .directory).put ["out", "d", "msg_a"] .directory

/-- Both runs succeed. The first puts another file in the place of one outside of its output
directory, and the second makes one there. -/
theorem generate_escapes :
    ((generate innerOptions dotsTree).2 =
          .ok ⟨[⟨"..", "schemas/...xml", none, [], ["A"], 0⟩], ⟨[⟨0, "A", 138⟩]⟩⟩ ∧
        ¬ Below (output innerOptions) ["out", "msg_a.txt"] ∧
        dotsTree.file? ["out", "msg_a.txt"] = some (Schema.textBytes "mine") ∧
        (generate innerOptions dotsTree).1.file? ["out", "msg_a.txt"] ≠
          some (Schema.textBytes "mine")) ∧
      ((generate plainOptions slashesTree).2 =
          .ok ⟨[⟨"d", "schemas/d.xml", none, [], ["a/../../../b"], 0⟩],
            ⟨[⟨0, "a/../../../b", 118⟩]⟩⟩ ∧
        ¬ Below (output plainOptions) ["b.txt"] ∧
        slashesTree.file? ["b.txt"] = none ∧
        (generate plainOptions slashesTree).1.file? ["b.txt"] ≠ none) := by
  decide +kernel

end Dialect.Run

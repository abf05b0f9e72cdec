import Dialect.Proofs.Files.Orderly
import Dialect.Proofs.Run.Accounts

/-!
# What stops a run

A run writes into directories of its own, one for each document and one for what is written once
(`folders`). Where these are in order nothing stops it but names: the file system refuses the file
of a message whose name has a slash in it, or one that is too long (`generate_eq_ok_iff_fits`). All
else that is wrong with a schema is reported, and stops nothing.
-/

namespace Dialect.Run

open Dialect.Files (Action Fits Folder Path.IsEntry Path.IsPlain Path.join Tree)
open Dialect.Schema (Message Table)

variable {o : Options} {t : Tree} {sources : List Source} {s : Source} {d : Listed} {table : Table}

/-! ## Names -/

/-- The file of a message is named like an entry, slashes or not. -/
theorem isEntry_listingFile (m : Message) : Path.IsEntry (listingFile m) := by
  have hhead : (listingFile m).toList.head? = some 'm' := by
    rw [toList_listingFile]
    rfl
  exact ⟨⟨'t', getLast?_listingFile m, by decide, by decide⟩,
    fun _ => ⟨'m', hhead, by decide, by decide⟩⟩

/-- Without slashes, the file of enumerations is named like an entry. -/
theorem isEntry_enumerationsFile {name : String} (h : '/' ∉ name.toList) :
    Path.IsEntry (enumerationsFile name) :=
  ⟨⟨'t', getLast?_enumerationsFile name, by decide, by decide⟩,
    fun hslash => absurd hslash (isPlain_enumerationsFile h).notMem⟩

/-- The name of a source that has been read can be that of a directory. -/
theorem isName_of_readSources {directory : String} (hwell : t.WellFormed)
    (hsources : readSources t directory = .ok sources) (hs : s ∈ sources) :
    Files.isName s.name := by
  obtain ⟨names, hnames, hall⟩ := readSources_eq_ok_iff.mp hsources
  obtain ⟨name, hname, bytes, hread, rfl⟩ := exists_of_forall₂_mem hall hs
  have hplain := isPlain_of_mem_fileNames? hwell hnames (mem_of_mem_schemaNames hname)
  obtain ⟨l, hl, -⟩ := Tree.read?_eq_some_iff.mp hread
  have hfollow := (Tree.locate?_eq_some_iff.mp hl).2
  rw [Files.Path.parts_join hplain.notMem, hplain.parts_eq, Tree.follow_append] at hfollow
  obtain ⟨k, -, hlast⟩ := Option.bind_eq_some_iff.mp hfollow
  refine Files.isName_mono (Files.Path.prefix_stem name) ?_
  by_contra hname'
  rw [Tree.follow] at hlast
  simp [hplain.ne_dots, hname'] at hlast

/-- The files that list a document can be put in a directory, but that they may have slashes. -/
theorem isEntry_of_mem_files (hwell : t.WellFormed)
    (hsources : readSources t o.schemaDirectory = .ok sources) (hd : d ∈ listed {} sources)
    {file : String} (hfile : file ∈ d.files) : Path.IsEntry file := by
  obtain ⟨⟨s, hs, hname⟩, hfiles, -⟩ := kept_of_mem_listed hd
  rcases List.mem_append.mp hfile with hkept | hlast
  · obtain ⟨k, hk, rfl⟩ := List.mem_map.mp hkept
    rw [hfiles k hk]
    exact isEntry_listingFile k.2
  · rw [List.mem_singleton.mp hlast]
    exact isEntry_enumerationsFile (hname ▸ (name_of_readSources hwell hsources hs).2)

/-- The folder of a document has the files of the document. -/
theorem files_folder (o : Options) (d : Listed) : (d.folder o).files.map (·.1) = d.files := by
  simp [Listed.files, Listed.folder]

/-- The folder of a document that is listed is proper, unless its name is one dot or two. -/
theorem proper_folder (hwell : t.WellFormed)
    (hsources : readSources t o.schemaDirectory = .ok sources) (hd : d ∈ listed {} sources)
    (hdots : d.name ≠ "." ∧ d.name ≠ "..") : (d.folder o).Proper := by
  obtain ⟨⟨s, hs, hname⟩, -⟩ := kept_of_mem_listed hd
  obtain ⟨hne, hnotMem⟩ := name_of_readSources hwell hsources hs
  have hgood := isName_of_readSources hwell hsources hs
  rw [← hname] at hne hnotMem hgood
  refine ⟨⟨hnotMem, hne, hdots.1, hdots.2⟩, hgood, fun e he => ?_, by simp [Listed.folder]⟩
  exact isEntry_of_mem_files hwell hsources hd (files_folder o d ▸ List.mem_map_of_mem he)

/-- The folder of the summaries is proper. -/
theorem proper_summaryFolder (table : Table) : (summaryFolder table).Proper := by
  have hname : Path.IsPlain "main" := ⟨by decide, by decide, by decide, by decide⟩
  have hgood : Files.isName "main" := by decide
  have hfiles : ∀ file ∈ summaryFiles,
      file.toList.getLast? = some 't' ∧ '/' ∉ file.toList := by
    decide
  refine ⟨hname, hgood, fun e he => ?_, by simp [summaryFolder]⟩
  have hfile : e.1 ∈ summaryFiles := List.mem_map_of_mem he
  obtain ⟨hlast, hslash⟩ := hfiles e.1 hfile
  exact ⟨⟨'t', hlast, by decide, by decide⟩, fun h => absurd h hslash⟩

/-- A folder fits if all the files of its document do. -/
theorem fits_folder_iff :
    (d.folder o).Fits o.outputDirectory ↔ ∀ file ∈ d.files, Fits (d.directory o) file := by
  rw [← files_folder o, List.forall_mem_map]
  rfl

/-- The folder of the summaries fits if the paths to its two files are short enough. -/
theorem fits_summaryFolder_iff :
    (summaryFolder table).Fits o.outputDirectory ↔
      ∀ file ∈ summaryFiles, Files.isPath (Path.join (summaryDirectory o) file) := by
  have hnames : ∀ file ∈ summaryFiles, '/' ∉ file.toList ∧ Files.isName file := by decide
  have hfiles : summaryFiles = (summaryFolder table).files.map (·.1) := by
    simp [summaryFiles, summaryFolder]
  constructor
  · intro hfits file hfile
    rw [hfiles] at hfile
    obtain ⟨e, he, rfl⟩ := List.mem_map.mp hfile
    exact (hfits e he).isPath
  · intro hpaths e he
    have hfile : e.1 ∈ summaryFiles := hfiles ▸ List.mem_map_of_mem he
    obtain ⟨hslash, hgood⟩ := hnames e.1 hfile
    exact ⟨hslash, hgood, hpaths e.1 hfile⟩

/-- **Only names stop a run.** Let the schema documents be readable, let the output directory be in
order once it has been made, as one is that is not there yet (`Tree.Sound.prepared`), and let no
document be named by dots alone. Then the run settles on a report with an entry on each document
that is found; and it succeeds, with this report, exactly if all its files can be put by their
names: those of messages have no slash in them, and no name and no path is too long. -/
theorem generate_eq_ok_iff_fits (hwell : t.WellFormed)
    (hsources : readSources t o.schemaDirectory = .ok sources)
    (hprepared : t.Prepared o.outputDirectory)
    (hdots : ∀ d ∈ listed {} sources, d.name ≠ "." ∧ d.name ≠ "..") :
    discover t o.schemaDirectory = .ok ((outcome o sources).1.documents.map (·.path)) ∧
      ((generate o t).2 = .ok (outcome o sources).1 ↔
        (∀ d ∈ listed {} sources, ∀ file ∈ d.files, Fits (d.directory o) file) ∧
          ∀ file ∈ summaryFiles, Files.isPath (Path.join (summaryDirectory o) file)) := by
  -- the changes are folder by folder, and all of them are of the form that `Prepared` is about
  have hproper : ∀ f ∈ folders o sources, f.Proper := by
    intro f hf
    rcases List.mem_append.mp hf with hdocument | hsummary
    · obtain ⟨d, hd, rfl⟩ := List.mem_map.mp hdocument
      exact proper_folder hwell hsources hd (hdots d hd)
    · rw [List.mem_singleton.mp hsummary]
      exact proper_summaryFolder _
  have hfits : (∀ f ∈ folders o sources, f.Fits o.outputDirectory) ↔
      (∀ d ∈ listed {} sources, ∀ file ∈ d.files, Fits (d.directory o) file) ∧
        ∀ file ∈ summaryFiles, Files.isPath (Path.join (summaryDirectory o) file) := by
    rw [folders, List.forall_mem_append, List.forall_mem_map, List.forall_mem_singleton,
      fits_summaryFolder_iff]
    simp only [fits_folder_iff]
  constructor
  · rw [paths_outcome]
    exact discover_of_readSources hsources
  · rw [← hfits, ← hprepared.performAll_iff hproper, ← actions_outcome,
      generate_of_readSources hsources]
    rcases t.performAll (outcome o sources).2 with ⟨after, _ | refusal⟩
    · simp
    · simp

/-- A tree of schema documents is one in which every name can be a name. -/
theorem sound_schemaTree {files : List (String × String)}
    (h : ∀ name ∈ files.map (·.1), Files.isName name) : (schemaTree files).Sound := by
  have hkeys := keys_schemaTree files
  have hschemas : Files.isName "schemas" := by decide
  refine ⟨fun k hk => ?_, fun k hk part hpart => ?_⟩ <;> rw [hkeys] at hk
  · rcases List.mem_cons.mp hk with rfl | hk
    · rfl
    · obtain ⟨name, -, rfl⟩ := List.mem_map.mp hk
      rfl
  · rcases List.mem_cons.mp hk with rfl | hk
    · rwa [List.mem_singleton.mp hpart]
    · obtain ⟨name, hname, rfl⟩ := List.mem_map.mp hk
      rcases List.mem_cons.mp hpart with rfl | hpart
      · exact hschemas
      · rw [List.mem_singleton.mp hpart]
        exact h name hname

/-- A document with a fault and one that cannot be read do not stop a run in which all files fit. -/
theorem generate_eq_ok_iff_fits_sample :
    let t := schemaTree [("d.xml", listText [("0", "A"), ("0", "B")]), ("e.xml", "<e>")]
    ∃ report, (generate plainOptions t).2 = .ok report ∧
      discover t "schemas" = .ok (report.documents.map (·.path)) ∧
      report.documents.map (·.faultCount) = [1, 1] := by
  intro t
  have hwell : t.WellFormed := wellFormed_schemaTree (by decide) (by decide)
  have hsound : t.Sound := sound_schemaTree (by decide)
  have hsources : readSources t plainOptions.schemaDirectory =
      .ok [schemaSource "d.xml" (listText [("0", "A"), ("0", "B")]), schemaSource "e.xml" "<e>"] :=
    rfl
  have hlisted : listed {} [schemaSource "d.xml" (listText [("0", "A"), ("0", "B")]),
      schemaSource "e.xml" "<e>"] = [⟨"d", [("msg_a.txt", ⟨0, "A", none, []⟩)], []⟩] := by
    decide +kernel
  have hprepared : t.Prepared plainOptions.outputDirectory :=
    hsound.prepared (by decide) (by decide) (by decide)
  have hdots : ∀ d ∈ [(⟨"d", [("msg_a.txt", ⟨0, "A", none, []⟩)], []⟩ : Listed)],
      d.name ≠ "." ∧ d.name ≠ ".." := by
    decide
  have hfits : ∀ d ∈ [(⟨"d", [("msg_a.txt", ⟨0, "A", none, []⟩)], []⟩ : Listed)],
      ∀ file ∈ d.files, Fits (d.directory plainOptions) file := by
    decide
  obtain ⟨hfound, hsucceeds⟩ := generate_eq_ok_iff_fits hwell hsources hprepared (hlisted ▸ hdots)
  rw [hlisted] at hsucceeds
  exact ⟨_, hsucceeds.mpr ⟨hfits, by decide⟩, hfound, by decide +kernel⟩

/-- A message whose name has a slash in it stops a run, and so does a document named by a dot. -/
theorem generate_stops :
    let t := schemaTree [("d.xml", listText [("1", "a/b")])]
    let t' := schemaTree [("..xml", "<d/>")]
    (discover t "schemas" = .ok ["schemas/d.xml"] ∧ t.node? ["out"] = none ∧
        (generate plainOptions t).2 = .error ⟨"out/d/msg_a"⟩) ∧
      discover t' "schemas" = .ok ["schemas/..xml"] ∧ t'.node? ["out"] = none ∧
        (generate plainOptions t').2 = .error ⟨"out/."⟩ := by
  decide +kernel

end Dialect.Run

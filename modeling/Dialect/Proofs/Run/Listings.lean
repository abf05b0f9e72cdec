import Dialect.Proofs.Run.Progress
import Dialect.Proofs.Run.Selection
import Dialect.Proofs.Run.Sources

/-!
# Where the listings of a run are put

A run lists each document that it can read in a directory of the same name (`listed`). Where its
files go depends on the names alone (`places_eq`), so there are two ways for files to get in each
other's way: documents with one name, and a message whose file is that of the enumerations
(`nodup_places_iff`).
-/

namespace Dialect.Run

open Dialect.Files (Action Folder Location Path.IsPlain Path.join Path.parts Path.parts_join
  Path.parts_parent_join Tree eq_of_descend_eq resolve resolve_join_of_notMem)
open Dialect.Schema (Document Enumeration Message Table)

/-! ## What is listed -/

/-- What a run lists of a document. -/
structure Listed where
  name : String
  kept : List (String × Message)
  enumerations : List Enumeration
  deriving DecidableEq, Repr

/-- What a run lists of some sources when the ids of a table are taken: that of each document it can
read. -/
def listed (table : Table) : List Source → List Listed
  | [] => []
  | s :: rest =>
    match s.compile 1 with
    | .error _ => listed table rest
    | .ok document =>
      let chosen := select table document.messages
      ⟨s.name, chosen.kept, document.enumerations⟩ :: listed chosen.table rest

variable {o : Options} {table : Table} {sources : List Source} {d d' : Listed}

/-- The changes of a run are those that list each document, in order. -/
theorem actions_progress (o : Options) (table : Table) (sources : List Source) :
    (progress o table sources).actions =
      (listed table sources).flatMap fun d => documentActions o d.name d.kept d.enumerations := by
  induction sources generalizing table with
  | nil => rfl
  | cons s rest ih =>
    rw [progress_cons, listed]
    cases hcompile : s.compile 1 with
    | error fault =>
      rw [step_of_fault hcompile]
      exact ih table
    | ok document =>
      rw [step_of_compile hcompile, List.flatMap_cons, ← ih]
      rfl

/-- The reports on documents that can be read say what is listed of each. -/
theorem reports_progress (o : Options) (table : Table) (sources : List Source) :
    ((progress o table sources).reports.filter (·.parseFault.isNone)).map
        (fun r => (r.name, r.messages, r.enumerations)) =
      (listed table sources).map
        fun d => (d.name, d.kept.map (·.2.name), d.enumerations.length) := by
  induction sources generalizing table with
  | nil => rfl
  | cons s rest ih =>
    rw [progress_cons, listed]
    cases hcompile : s.compile 1 with
    | error fault =>
      rw [step_of_fault hcompile]
      exact ih table
    | ok document =>
      rw [step_of_compile hcompile, List.map_cons, ← ih]
      rfl

/-- The reports name the messages that are listed, in order. -/
theorem messages_progress (o : Options) (table : Table) (sources : List Source) :
    (progress o table sources).reports.flatMap (·.messages) =
      (listed table sources).flatMap fun d => d.kept.map (·.2.name) := by
  induction sources generalizing table with
  | nil => rfl
  | cons s rest ih =>
    rw [progress_cons, listed]
    cases hcompile : s.compile 1 with
    | error fault =>
      rw [step_of_fault hcompile]
      exact ih table
    | ok document =>
      rw [step_of_compile hcompile, List.flatMap_cons, ← ih]
      rfl

/-- The slots that are filled are those of the messages that are listed, behind those that were
filled before; and no id has two. -/
theorem slots_progress (h : table.Lawful) (sources : List Source) :
    (progress o table sources).table.slots =
        table.slots ++ (listed table sources).flatMap (fun d => d.kept.map (·.2.slot)) ∧
      (progress o table sources).table.Lawful := by
  induction sources generalizing table with
  | nil => exact ⟨(List.append_nil _).symm, h⟩
  | cons s rest ih =>
    rw [progress_cons, listed]
    cases hcompile : s.compile 1 with
    | error fault =>
      rw [step_of_fault hcompile]
      exact ih h
    | ok document =>
      obtain ⟨hslots, hlawful⟩ := fills_select h document.messages
      rw [step_of_compile hcompile, List.flatMap_cons, ← List.append_assoc, ← hslots]
      exact ih hlawful

/-- Each message that is listed has a file of its own in its document. -/
theorem kept_of_mem_listed (h : d ∈ listed table sources) :
    (∃ s ∈ sources, d.name = s.name) ∧ (∀ k ∈ d.kept, k.1 = listingFile k.2) ∧
      (d.kept.map (·.1)).Nodup := by
  induction sources generalizing table with
  | nil => exact absurd h List.not_mem_nil
  | cons s rest ih =>
    rw [listed] at h
    split at h
    · obtain ⟨⟨s', hs', hname⟩, hkept⟩ := ih h
      exact ⟨⟨s', List.mem_cons_of_mem s hs', hname⟩, hkept⟩
    · rcases List.mem_cons.mp h with rfl | h
      · exact ⟨⟨s, List.mem_cons_self, rfl⟩, files_select table _⟩
      · obtain ⟨⟨s', hs', hname⟩, hkept⟩ := ih h
        exact ⟨⟨s', List.mem_cons_of_mem s hs', hname⟩, hkept⟩

/-! ## Names -/

/-- The name of a source that has been read is that of a file without its ending. -/
theorem name_of_readSources {t : Tree} {directory : String} {s : Source} (hwell : t.WellFormed)
    (hsources : readSources t directory = .ok sources) (hs : s ∈ sources) :
    s.name ≠ "" ∧ '/' ∉ s.name.toList := by
  obtain ⟨names, hnames, hall⟩ := readSources_eq_ok_iff.mp hsources
  obtain ⟨name, hname, bytes, -, rfl⟩ := exists_of_forall₂_mem hall hs
  have hplain := isPlain_of_mem_fileNames? hwell hnames (mem_of_mem_schemaNames hname)
  obtain ⟨hne, hmem⟩ := Files.Path.stem_of_extension? (isSome_extension? hname)
  exact ⟨hne, fun hslash => hplain.notMem (hmem _ hslash)⟩

/-- The file of a message is named by its name in lower case. -/
theorem toList_listingFile (m : Message) :
    (listingFile m).toList = "msg_".toList ++ ((Text.lower m.name).toList ++ ".txt".toList) := by
  have hfile : listingFile m = "msg_" ++ Text.lower m.name ++ ".txt" := rfl
  rw [hfile, String.toList_append, String.toList_append, List.append_assoc]

/-- The file of enumerations is named by the document. -/
theorem toList_enumerationsFile (name : String) :
    (enumerationsFile name).toList = name.toList ++ ".enums.txt".toList :=
  String.toList_append

/-- The name of the file of a message has a last character, which is no dot. -/
theorem getLast?_listingFile (m : Message) : (listingFile m).toList.getLast? = some 't' := by
  rw [toList_listingFile, ← List.append_assoc, List.getLast?_append]
  rfl

/-- The name of the file of enumerations has a last character, which is no dot. -/
theorem getLast?_enumerationsFile (name : String) :
    (enumerationsFile name).toList.getLast? = some 't' := by
  rw [toList_enumerationsFile, List.getLast?_append]
  rfl

/-- A text without slashes that ends in neither a slash nor a dot can stand in a path. -/
theorem isPlain_of_getLast? {file : String} (hslash : '/' ∉ file.toList)
    (hlast : file.toList.getLast? = some 't') : Path.IsPlain file := by
  refine ⟨hslash, ?_, ?_, ?_⟩ <;> rintro rfl <;> exact absurd hlast (by decide)

/-- Without slashes, the name of the file of a message is plain. -/
theorem isPlain_listingFile {m : Message} (h : '/' ∉ (listingFile m).toList) :
    Path.IsPlain (listingFile m) :=
  isPlain_of_getLast? h (getLast?_listingFile m)

/-- Without slashes, the name of the file of enumerations is plain. -/
theorem isPlain_enumerationsFile {name : String} (h : '/' ∉ name.toList) :
    Path.IsPlain (enumerationsFile name) := by
  refine isPlain_of_getLast? ?_ (getLast?_enumerationsFile name)
  rw [toList_enumerationsFile]
  simp [h]

/-- Files that are put in a directory are below it. -/
theorem place?_writeText {directory file text : String} (h : Path.IsPlain file) :
    (writeText directory file text).place? =
      some (resolve [] (Path.parts directory) ++ [file]) := by
  rw [writeText, Action.place?, Path.parts_join h.notMem, h.parts_eq, List.getLast?_concat,
    Path.parts_parent_join h.notMem]
  rfl

/-! ## Places -/

/-- The directory in which the files of a document are put. -/
def Listed.directory (o : Options) (d : Listed) : String := Path.join o.outputDirectory d.name

/-- The files that list a document: those of its messages, and that of its enumerations. -/
def Listed.files (d : Listed) : List String := d.kept.map (·.1) ++ [enumerationsFile d.name]

/-- The directory of a document, and the files that list it. -/
def Listed.folder (o : Options) (d : Listed) : Folder :=
  ⟨d.name, d.kept.map (fun k => (k.1, Schema.textBytes (Listing.message o.order k.2))) ++
    [(enumerationsFile d.name,
      Schema.textBytes (Listing.enumerations d.name d.enumerations))]⟩

/-- The directory of what is written once for a run, and its files. -/
def summaryFolder (table : Table) : Folder :=
  ⟨"main", [("crc_table.txt", Schema.textBytes (Listing.codes table)),
    ("dispatch.txt", Schema.textBytes (Listing.dispatch table))]⟩

/-- The directories that a run makes, in order, and the files that it puts in them. -/
def folders (o : Options) (sources : List Source) : List Folder :=
  (listed {} sources).map (Listed.folder o) ++ [summaryFolder (outcome o sources).1.table]

/-- A document is listed in one folder. -/
theorem documentActions_eq (o : Options) (d : Listed) :
    documentActions o d.name d.kept d.enumerations = (d.folder o).actions o.outputDirectory := by
  simp [documentActions, Folder.actions, Folder.writes, Listed.folder, writeText,
    Function.comp_def]

/-- What is written once for a run is written in one folder. -/
theorem summaryActions_eq (o : Options) (table : Table) :
    summaryActions o table = (summaryFolder table).actions o.outputDirectory := by
  simp [summaryActions, Folder.actions, Folder.writes, summaryFolder, writeText,
    summaryDirectory]

/-- All changes of a run make its directories and put its files. -/
theorem actions_outcome (o : Options) (sources : List Source) :
    (outcome o sources).2 = (folders o sources).flatMap (Folder.actions o.outputDirectory) := by
  rw [folders, outcome_eq]
  simp only [actions_progress, documentActions_eq, summaryActions_eq, List.flatMap_append,
    List.flatMap_map, List.flatMap_singleton]

/-- The path to a file that lists a document. -/
def Listed.path (o : Options) (d : Listed) (file : String) : String :=
  Path.join (d.directory o) file

/-- Where a run puts its files. -/
def places (o : Options) (sources : List Source) : List Location :=
  (outcome o sources).2.filterMap Action.place?

/-- Where the files that list a document are put. -/
def Listed.places (o : Options) (d : Listed) : List Location :=
  d.files.map fun file => resolve [] (Path.parts (d.directory o)) ++ [file]

/-- The files that are written once for a run. -/
def summaryFiles : List String := ["crc_table.txt", "dispatch.txt"]

/-- Where the files that are written once for a run are put. -/
def summaryPlaces (o : Options) : List Location :=
  summaryFiles.map fun file => resolve [] (Path.parts (summaryDirectory o)) ++ [file]

/-- Names as those of documents are, of which none leads anywhere but to a file or a directory, and
different messages of a document have different files. -/
structure Listed.Proper (d : Listed) : Prop where
  ne_empty : d.name ≠ ""
  notMem : '/' ∉ d.name.toList
  eq_listingFile : ∀ k ∈ d.kept, k.1 = listingFile k.2
  nodup : (d.kept.map (·.1)).Nodup
  notMem_file : ∀ k ∈ d.kept, '/' ∉ k.1.toList

/-- The files of a proper document have plain names. -/
theorem Listed.Proper.isPlain (h : d.Proper) {file : String} (hfile : file ∈ d.files) :
    Path.IsPlain file := by
  rcases List.mem_append.mp hfile with hkept | hlast
  · obtain ⟨k, hk, rfl⟩ := List.mem_map.mp hkept
    have hslash := h.notMem_file k hk
    rw [h.eq_listingFile k hk] at hslash ⊢
    exact isPlain_listingFile hslash
  · rw [List.mem_singleton.mp hlast]
    exact isPlain_enumerationsFile h.notMem

/-- The places that listing a document writes to are those of its files. -/
theorem filterMap_place?_documentActions (h : d.Proper) :
    (documentActions o d.name d.kept d.enumerations).filterMap Action.place? = d.places o := by
  have hkept : (d.kept.map fun k =>
      writeText (d.directory o) k.1 (Listing.message o.order k.2)).filterMap Action.place? =
        d.kept.map fun k => resolve [] (Path.parts (d.directory o)) ++ [k.1] := by
    rw [List.filterMap_map, ← List.filterMap_eq_map]
    refine List.filterMap_congr fun k hk => place?_writeText (h.isPlain ?_)
    exact List.mem_append_left _ (List.mem_map_of_mem hk)
  have hlast : (writeText (d.directory o) (enumerationsFile d.name)
      (Listing.enumerations d.name d.enumerations)).place? =
        some (resolve [] (Path.parts (d.directory o)) ++ [enumerationsFile d.name]) :=
    place?_writeText (isPlain_enumerationsFile h.notMem)
  rw [documentActions, List.cons_append, List.filterMap_cons_none rfl, List.filterMap_append]
  refine (congrArg₂ (· ++ ·) hkept (List.filterMap_cons_some hlast)).trans ?_
  rw [Listed.places, Listed.files, List.map_append, List.map_map]
  rfl

/-- The places that are written to once for a run are those of the two summaries. -/
theorem filterMap_place?_summaryActions (table : Table) :
    (summaryActions o table).filterMap Action.place? = summaryPlaces o := by
  have hplain : ∀ file ∈ summaryFiles, Path.IsPlain file := by
    intro file hfile
    simp only [summaryFiles, List.mem_cons, List.not_mem_nil, or_false] at hfile
    rcases hfile with rfl | rfl
    · exact ⟨by decide, by decide, by decide, by decide⟩
    · exact ⟨by decide, by decide, by decide, by decide⟩
  rw [summaryActions, List.filterMap_cons_none rfl,
    List.filterMap_cons_some (place?_writeText (hplain _ (by simp [summaryFiles]))),
    List.filterMap_cons_some (place?_writeText (hplain _ (by simp [summaryFiles])))]
  rfl

/-- Where a run puts its files depends on names only. -/
theorem places_eq (h : ∀ d ∈ listed {} sources, d.Proper) :
    places o sources =
      (listed {} sources).flatMap (Listed.places o) ++ summaryPlaces o := by
  rw [places, outcome_eq]
  simp only [List.filterMap_append, filterMap_place?_summaryActions, actions_progress,
    List.filterMap_flatMap]
  rw [List.flatMap_congr fun d hd => filterMap_place?_documentActions (h d hd)]

/-! ## Files in each other's way -/

/-- The files of a document are distinct if no message has the file of the enumerations. -/
theorem nodup_files_iff (h : d.Proper) :
    d.files.Nodup ↔ ∀ k ∈ d.kept, listingFile k.2 ≠ enumerationsFile d.name := by
  rw [Listed.files, List.nodup_append]
  simp only [h.nodup, List.nodup_singleton, true_and, List.mem_map, List.mem_singleton]
  constructor
  · intro hne k hk
    rw [← h.eq_listingFile k hk]
    exact hne k.1 ⟨k, hk, rfl⟩ _ rfl
  · rintro hne file ⟨k, hk, rfl⟩ _ rfl
    rw [h.eq_listingFile k hk]
    exact hne k hk

/-- The places of a document are distinct if its files are. -/
theorem nodup_places_iff_files : (d.places o).Nodup ↔ d.files.Nodup := by
  refine List.nodup_map_iff fun file file' hfile => ?_
  simpa using hfile

/-- The files of a document are none of those written once for a run. -/
theorem notMem_summaryFiles {file : String} (h : d.Proper) (hfile : file ∈ d.files) :
    file ∉ summaryFiles := by
  -- listings of messages begin with another letter, and those of enumerations end otherwise
  have hsummary : ∀ other ∈ summaryFiles,
      other.toList.head? ≠ some 'm' ∧ other.toList.reverse[4]? ≠ some 's' := by
    decide
  intro hmem
  rcases List.mem_append.mp hfile with hkept | hlast
  · obtain ⟨k, hk, rfl⟩ := List.mem_map.mp hkept
    rw [h.eq_listingFile k hk] at hmem
    refine (hsummary _ hmem).1 ?_
    rw [toList_listingFile]
    rfl
  · rw [List.mem_singleton.mp hlast] at hmem
    refine (hsummary _ hmem).2 ?_
    rw [toList_enumerationsFile, List.reverse_append]
    rfl

/-- Different documents are listed in different directories, but that nothing leads up from the
root. -/
theorem name_eq_of_directory_eq (h : d.Proper) (h' : d'.Proper)
    (hup : resolve [] (Path.parts o.outputDirectory) = [] → d.name ≠ ".." ∧ d'.name ≠ "..")
    (heq : resolve [] (Path.parts (d.directory o)) = resolve [] (Path.parts (d'.directory o))) :
    d.name = d'.name := by
  rw [Listed.directory, Listed.directory, resolve_join_of_notMem h.notMem h.ne_empty,
    resolve_join_of_notMem h'.notMem h'.ne_empty] at heq
  exact eq_of_descend_eq hup heq

/-- Two documents write to no common place exactly if they have different names. -/
theorem disjoint_places_iff (h : d.Proper) (h' : d'.Proper)
    (hup : resolve [] (Path.parts o.outputDirectory) = [] → d.name ≠ ".." ∧ d'.name ≠ "..") :
    List.Disjoint (d.places o) (d'.places o) ↔ d.name ≠ d'.name := by
  constructor
  · intro hdisjoint hname
    refine hdisjoint (a := resolve [] (Path.parts (d.directory o)) ++ [enumerationsFile d.name])
      (List.mem_map_of_mem ?_) (List.mem_map.mpr ⟨enumerationsFile d'.name, ?_, ?_⟩)
    · exact List.mem_append_right _ (List.mem_singleton_self _)
    · exact List.mem_append_right _ (List.mem_singleton_self _)
    · rw [Listed.directory, Listed.directory, hname]
  · intro hname l hl hl'
    obtain ⟨file, -, rfl⟩ := List.mem_map.mp hl
    obtain ⟨file', -, heq⟩ := List.mem_map.mp hl'
    exact hname (name_eq_of_directory_eq h h' hup (List.append_inj_left' heq rfl).symm)

/-- **When files get in each other's way.** -/
theorem nodup_places_iff (h : ∀ d ∈ listed {} sources, d.Proper)
    (hup : resolve [] (Path.parts o.outputDirectory) = [] →
      ∀ d ∈ listed {} sources, d.name ≠ "..") :
    (places o sources).Nodup ↔
      ((listed {} sources).map Listed.name).Nodup ∧
        ∀ d ∈ listed {} sources, ∀ k ∈ d.kept, listingFile k.2 ≠ enumerationsFile d.name := by
  have hsummary : (summaryPlaces o).Nodup := by
    refine List.Nodup.map (fun file file' hfile => by simpa using hfile) ?_
    decide
  -- the files of the summary are in no way of those of documents
  have hapart :
      List.Disjoint ((listed {} sources).flatMap (Listed.places o)) (summaryPlaces o) := by
    intro l hl hl'
    obtain ⟨d, hd, hplace⟩ := List.mem_flatMap.mp hl
    obtain ⟨file, hfile, rfl⟩ := List.mem_map.mp hplace
    obtain ⟨file', hfile', heq⟩ := List.mem_map.mp hl'
    have hsame : file' = file := by simpa using List.append_inj_right' heq rfl
    exact notMem_summaryFiles (h d hd) hfile (hsame ▸ hfile')
  -- files of two documents share a place only if the documents share a name
  have hpairs : (listed {} sources).Pairwise (Function.onFun List.Disjoint (Listed.places o)) ↔
      ((listed {} sources).map Listed.name).Nodup := by
    rw [List.nodup_iff_pairwise_ne, List.pairwise_map]
    refine List.Pairwise.iff_of_mem fun {d d'} hd hd' => ?_
    exact disjoint_places_iff (h d hd) (h d' hd') fun hroot => ⟨hup hroot d hd, hup hroot d' hd'⟩
  -- and files of one document only if a message has that of the enumerations
  have hfiles : (∀ d ∈ listed {} sources, (d.places o).Nodup) ↔
      ∀ d ∈ listed {} sources, ∀ k ∈ d.kept, listingFile k.2 ≠ enumerationsFile d.name :=
    forall₂_congr fun d hd => nodup_places_iff_files.trans (nodup_files_iff (h d hd))
  rw [places_eq h, List.nodup_append', List.nodup_flatMap, hpairs, hfiles]
  constructor
  · rintro ⟨⟨hfree, hnames⟩, -, -⟩
    exact ⟨hnames, hfree⟩
  · rintro ⟨hnames, hfree⟩
    exact ⟨⟨hfree, hnames⟩, hsummary, hapart⟩

end Dialect.Run

import Dialect.Proofs.Files.Agreement
import Dialect.Proofs.Outcome
import Dialect.Run.Generate
import Mathlib.Data.List.Sort

/-!
# Reading the sources of a run

The sources of a run are the schema documents of a directory in the order of their names, whatever
order the file system lists them in (`schemaNames_of_perm`). So when a file is put in the place of
one of them, the run reads the same sources but for the text of that one (`readSources_write`).
-/

namespace Dialect.Run

open Dialect.Files (Path.IsPlain Path.join Path.parts Path.parts_join Path.parts_parent_join Refusal
  Tree resolve resolve_join)

/-! ## The order of names -/

variable {names names' : List String} {name : String}

instance total_le : Std.Total fun a b : String => a ≤ b := ⟨String.le_total⟩

instance isTrans_le : IsTrans String fun a b => a ≤ b := ⟨fun _ _ _ => String.le_trans⟩

/-- Inserting a name keeps names in order. -/
theorem insertName_eq_orderedInsert (name : String) (names : List String) :
    insertName name names = names.orderedInsert (· ≤ ·) name := by
  induction names with
  | nil => rfl
  | cons other rest ih => rw [insertName, List.orderedInsert_cons, ih]

/-- The names of schema documents are sorted one by one. -/
theorem schemaNames_eq_insertionSort (names : List String) :
    schemaNames names = (names.filter isSchemaName).insertionSort (· ≤ ·) := by
  rw [schemaNames, List.insertionSort]
  congr 1
  funext name rest
  exact insertName_eq_orderedInsert name rest

/-- The schema documents are those files that are named so, in another order. -/
theorem schemaNames_perm (names : List String) :
    (schemaNames names).Perm (names.filter isSchemaName) := by
  rw [schemaNames_eq_insertionSort]
  exact List.perm_insertionSort _ _

/-- The order in which names are listed does not matter. -/
theorem schemaNames_of_perm (h : names.Perm names') : schemaNames names = schemaNames names' := by
  have hperm : (schemaNames names).Perm (schemaNames names') :=
    ((schemaNames_perm names).trans (h.filter _)).trans (schemaNames_perm names').symm
  rw [schemaNames_eq_insertionSort, schemaNames_eq_insertionSort] at hperm ⊢
  exact hperm.eq_of_pairwise (fun a b _ _ => String.le_antisymm)
    (List.pairwise_insertionSort _ _) (List.pairwise_insertionSort _ _)

/-- No schema document is found twice. -/
theorem nodup_schemaNames (h : names.Nodup) : (schemaNames names).Nodup :=
  (schemaNames_perm names).nodup_iff.mpr (h.filter _)

/-- Every schema document is one of the files. -/
theorem mem_of_mem_schemaNames (h : name ∈ schemaNames names) : name ∈ names :=
  List.mem_of_mem_filter ((schemaNames_perm names).mem_iff.mp h)

/-- Names stand in order, and no name twice if none is listed twice. -/
theorem pairwise_schemaNames (h : names.Nodup) : (schemaNames names).Pairwise (· < ·) := by
  have hle : (schemaNames names).Pairwise (· ≤ ·) := by
    rw [schemaNames_eq_insertionSort]
    exact List.pairwise_insertionSort _ _
  refine (hle.and (nodup_schemaNames h)).imp fun {a b} hab => ?_
  exact Std.lt_of_le_of_ne hab.1 hab.2

/-- A schema document has an extension to be known by. -/
theorem isSome_extension? (h : name ∈ schemaNames names) :
    (Files.Path.extension? name).isSome := by
  have hschema := List.of_mem_filter ((schemaNames_perm names).mem_iff.mp h)
  rw [isSchemaName] at hschema
  split at hschema
  · exact absurd hschema (by simp)
  · next ending hending => rw [hending, Option.isSome_some]

/-! ## Reading -/

variable {t t' : Tree} {directory : String} {sources front back : List Source} {s : Source}

/-- The source is what there is under a name of a directory. -/
def Source.IsAt (t : Tree) (directory name : String) (s : Source) : Prop :=
  ∃ bytes, t.read? (Path.join directory name) = some bytes ∧ s = Source.ofFile directory name bytes

/-- Sources can be read exactly if there is one under each name of a schema document. -/
theorem readSources_eq_ok_iff :
    readSources t directory = .ok sources ↔
      ∃ names, t.fileNames? directory = some names ∧
        List.Forall₂ (Source.IsAt t directory) (schemaNames names) sources := by
  rw [readSources]
  cases t.fileNames? directory with
  | none => simp
  | some names =>
    simp only [Option.some.injEq, exists_eq_left', mapM_eq_ok_iff]
    constructor
    · refine List.Forall₂.imp fun name s hs => ?_
      split at hs
      · next bytes hbytes => exact ⟨bytes, hbytes, (Except.ok.inj hs).symm⟩
      · exact absurd hs (by simp)
    · refine List.Forall₂.imp fun name s hs => ?_
      obtain ⟨bytes, hbytes, rfl⟩ := hs
      rw [hbytes]

/-- A source that has been read has the path under which it has been found. -/
theorem Source.IsAt.path_eq (h : s.IsAt t directory name) : s.path = Path.join directory name := by
  obtain ⟨bytes, -, rfl⟩ := h
  rfl

/-- The sources that are read are those that are found. -/
theorem discover_of_readSources (h : readSources t directory = .ok sources) :
    discover t directory = .ok (sources.map Source.path) := by
  obtain ⟨names, hnames, hall⟩ := readSources_eq_ok_iff.mp h
  have hpaths : (schemaNames names).map (Path.join directory) = sources.map Source.path := by
    rw [← List.forall₂_eq_eq_eq, List.forall₂_map_left_iff, List.forall₂_map_right_iff]
    exact hall.imp fun name s hs => hs.path_eq.symm
  simp only [discover, hnames, hpaths]

section Listed

variable (hwell : t.WellFormed) (hnames : t.fileNames? directory = some names)

include hwell hnames

/-- No two files of a directory have one name. -/
theorem nodup_of_fileNames? : names.Nodup := by
  obtain ⟨k, -, -, rfl⟩ := Tree.fileNames?_eq_some_iff.mp hnames
  exact (hwell.nodup_names k).filter _

/-- Files of a directory have plain names. -/
theorem isPlain_of_mem_fileNames? (hname : name ∈ names) : Path.IsPlain name := by
  obtain ⟨k, -, -, rfl⟩ := Tree.fileNames?_eq_some_iff.mp hnames
  exact hwell.isPlain_of_mem_names (List.mem_of_mem_filter hname)

/-- Different names that are listed lead to different places. -/
theorem eq_of_resolve_join_eq {name' : String} (hname : name ∈ names) (hname' : name' ∈ names)
    (heq : resolve [] (Path.parts (Path.join directory name)) =
      resolve [] (Path.parts (Path.join directory name'))) : name = name' := by
  rw [resolve_join (isPlain_of_mem_fileNames? hwell hnames hname),
    resolve_join (isPlain_of_mem_fileNames? hwell hnames hname')] at heq
  simpa using heq

/-- The paths of the documents that are found are in order, and no two are the same. -/
theorem pairwise_discover {paths : List String} (hpaths : discover t directory = .ok paths) :
    paths.Pairwise (· < ·) := by
  rw [discover, hnames] at hpaths
  rw [← Except.ok.inj hpaths, List.pairwise_map]
  refine (pairwise_schemaNames (nodup_of_fileNames? hwell hnames)).imp_of_mem
    fun {a b} ha hb hab => ?_
  have hhead : ∀ name ∈ schemaNames names, name.toList.head? ≠ some '/' := fun name hname =>
    Files.Path.head?_ne_of_notMem
      (isPlain_of_mem_fileNames? hwell hnames (mem_of_mem_schemaNames hname)).notMem
  rw [String.lt_iff, Files.Path.toList_join (hhead a ha), Files.Path.toList_join (hhead b hb)]
  exact List.append_left_lt (String.lt_iff.mp hab)

/-- With another file in the place of one of the sources, the others are there as before. -/
theorem Source.IsAt.of_agreeBut {name' : String} (hname : name ∈ names) (hname' : name' ∈ names)
    (hne : name' ≠ name)
    (hagree : Tree.AgreeBut (· = resolve [] (Path.parts (Path.join directory name))) t t')
    (h : s.IsAt t directory name') : s.IsAt t' directory name' := by
  obtain ⟨bytes, hbytes, rfl⟩ := h
  refine ⟨bytes, ?_, rfl⟩
  rw [← hagree.read?_eq, hbytes]
  rintro k hplace rfl
  have heq := Tree.eq_resolve_of_locate? hplace
  exact hne (eq_of_resolve_join_eq hwell hnames hname' hname heq.symm)

end Listed

/-- With another file in the place of one of the sources, the same sources are read but for the text
of that one. -/
theorem readSources_write {bytes : List UInt8} (hwell : t.WellFormed)
    (hsources : readSources t directory = .ok (front ++ s :: back))
    (hwrite : t.write s.path bytes = .ok t') :
    readSources t' directory = .ok (front ++ { s with text := decodeText bytes } :: back) ∧
      Tree.AgreeBut (· = resolve [] (Path.parts s.path)) t t' := by
  obtain ⟨names, hnames, hall⟩ := readSources_eq_ok_iff.mp hsources
  obtain ⟨nfront, name, nback, hsplit, hfront, hs, hback⟩ := exists_of_forall₂_append_cons hall
  have hlisted : ∀ n ∈ nfront ++ name :: nback, n ∈ names :=
    fun n hn => mem_of_mem_schemaNames (hsplit ▸ hn)
  have hname : name ∈ names := hlisted name (by simp)
  have hplain := isPlain_of_mem_fileNames? hwell hnames hname
  rw [hs.path_eq] at hwrite ⊢
  have hput := Tree.eq_put_of_write hplain hwrite
  obtain ⟨old, hold, rfl⟩ := hs
  obtain ⟨l, hl, hfile⟩ := Tree.read?_eq_some_iff.mp hold
  obtain rfl := Tree.eq_resolve_of_locate? hl
  have hne : resolve [] (Path.parts (Path.join directory name)) ≠ [] := by
    rw [resolve_join hplain]
    simp
  have hagree := Tree.agreeBut_put bytes hne hfile
  obtain ⟨names', hnames', hperm⟩ := Tree.perm_fileNames?_put bytes hwell hne hfile hnames
  rw [← hput] at hagree hnames'
  have hself : Source.IsAt t' directory name (Source.ofFile directory name bytes) := by
    refine ⟨bytes, Tree.read?_eq_some_iff.mpr ⟨_, hagree.locate?_eq _ ▸ hl, ?_⟩, rfl⟩
    rw [hput, Tree.node?_put hne, if_pos rfl]
  -- no name is listed twice
  have hnodup := nodup_schemaNames (nodup_of_fileNames? hwell hnames)
  rw [hsplit, List.nodup_middle, List.nodup_cons, List.mem_append, not_or] at hnodup
  refine ⟨readSources_eq_ok_iff.mpr ⟨names', hnames', ?_⟩, hagree⟩
  rw [schemaNames_of_perm hperm, hsplit]
  refine List.rel_append (forall₂_of_mem hfront fun n hn source hsource => ?_)
    (.cons hself (forall₂_of_mem hback fun n hn source hsource => ?_))
  · refine hsource.of_agreeBut hwell hnames hname (hlisted n (List.mem_append_left _ hn)) ?_ hagree
    rintro rfl
    exact hnodup.1.1 hn
  · refine hsource.of_agreeBut hwell hnames hname
      (hlisted n (List.mem_append_right _ (List.mem_cons_of_mem _ hn))) ?_ hagree
    rintro rfl
    exact hnodup.1.2 hn

/-! ## Trees with schema documents only -/

/-- A document of messages without fields, each with an id and a name. -/
def listText (items : List (String × String)) : String :=
  "<d><messages>" ++ String.join (items.map fun m => s!"<message id='{m.1}' name='{m.2}'/>") ++
    "</messages></d>"

/-- A file tree with schema documents under the given names. -/
def schemaTree (files : List (String × String)) : Tree :=
  ⟨(["schemas"], .directory) ::
    files.map fun f => (["schemas", f.1], .file (Schema.textBytes f.2))⟩

/-- The source under a name in such a tree. -/
def schemaSource (name text : String) : Source :=
  Source.ofFile "schemas" name (Schema.textBytes text)

/-- A run with one worker. -/
def plainOptions : Options := ⟨"schemas", "out", 1, .little⟩

/-- A tree of schema documents lists their directory and the documents in it. -/
theorem keys_schemaTree (files : List (String × String)) :
    (schemaTree files).keys =
      ["schemas"] :: (files.map (·.1)).map fun name => ["schemas", name] := by
  simp [Tree.keys, schemaTree]

/-- A tree of schema documents is well-formed if their names are distinct and can be names. -/
theorem wellFormed_schemaTree {files : List (String × String)} (hnodup : (files.map (·.1)).Nodup)
    (hplain : ∀ name ∈ files.map (·.1), '/' ∉ name.toList ∧ name ≠ "" ∧ name ≠ "." ∧ name ≠ "..") :
    (schemaTree files).WellFormed := by
  have hkeys := keys_schemaTree files
  constructor
  · rw [hkeys, List.nodup_cons]
    exact ⟨by simp, hnodup.map fun name name' hname => by simpa using hname⟩
  · intro k hk
    rw [hkeys] at hk
    rcases List.mem_cons.mp hk with rfl | hk
    · simp
    · obtain ⟨name, -, rfl⟩ := List.mem_map.mp hk
      simp
  -- the parts of a location are the name of the directory and that of one file in it
  · intro k hk part hpart
    have hschemas : Path.IsPlain "schemas" := ⟨by decide, by decide, by decide, by decide⟩
    rw [hkeys] at hk
    rcases List.mem_cons.mp hk with rfl | hk
    · rwa [List.mem_singleton.mp hpart]
    · obtain ⟨name, hname, rfl⟩ := List.mem_map.mp hk
      rcases List.mem_cons.mp hpart with rfl | hpart
      · exact hschemas
      · rw [List.mem_singleton.mp hpart]
        obtain ⟨hslash, hempty, hdot, hdots⟩ := hplain name hname
        exact ⟨hslash, hempty, hdot, hdots⟩

end Dialect.Run

import Dialect.Proofs.Files.Agreement

/-!
# Directories of directories of files

A directory is in order if all that is in it are directories, and all that is in these are files
(`Tree.Orderly`). It stays in order when more directories are made in it and files are put in those
by their names, and nothing is refused there but a name with slashes, or one that is too long
(`Tree.Prepared.performAll_iff`). A directory that is new is in order (`Tree.Sound.prepared`).
-/

namespace Dialect.Files

/-! ## Names and paths that are short enough -/

/-- What a text begins with takes no more bytes than the text. -/
theorem utf8ByteSize_mono {s longer : String} (h : s.toList <+: longer.toList) :
    s.utf8ByteSize ≤ longer.utf8ByteSize := by
  obtain ⟨back, hback⟩ := h
  have hsplit : longer = s ++ String.ofList back := by
    rw [← String.toList_inj, String.toList_append, String.toList_ofList, hback]
  rw [hsplit, String.utf8ByteSize_append]
  exact Nat.le_add_right _ _

/-- What a path begins with is a path, as limits on paths are limits on their length. -/
theorem isPath_mono {path longer : String} (h : path.toList <+: longer.toList)
    (hlonger : isPath longer) : isPath path := by
  rw [isPath, decide_eq_true_iff] at hlonger ⊢
  exact Nat.le_trans (utf8ByteSize_mono h) hlonger

/-- What a name begins with is short enough for a name if the name is. -/
theorem isName_mono {name longer : String} (h : name.toList <+: longer.toList)
    (hlonger : isName longer) : isName name := by
  rw [isName, Bool.and_eq_true, decide_eq_true_iff, List.all_eq_true] at hlonger ⊢
  exact ⟨Nat.le_trans (utf8ByteSize_mono h) hlonger.1,
    fun c hc => hlonger.2 c (h.subset hc)⟩

/-- The file can be put in a directory by its name. -/
structure Fits (directory file : String) : Prop where
  notMem : '/' ∉ file.toList
  isName : isName file
  isPath : isPath (Path.join directory file)

instance (directory file : String) : Decidable (Fits directory file) :=
  decidable_of_iff ('/' ∉ file.toList ∧ isName file ∧ isPath (Path.join directory file))
    ⟨fun ⟨hslash, hname, hpath⟩ => ⟨hslash, hname, hpath⟩, fun h => ⟨h.notMem, h.isName, h.isPath⟩⟩

namespace Tree

variable {t u after : Tree} {k l : Location} {parts front back : List String}
  {path name file : String} {bytes : List UInt8}

/-! ## Directories on the way -/

/-- A way that leads to a directory starts in one. -/
theorem isDirectory_of_follow (h : t.follow l parts = some k) (hk : t.isDirectory k) :
    t.isDirectory l := by
  cases parts with
  | nil => rwa [Option.some.inj h]
  | cons part rest =>
    by_contra hl
    rw [follow, if_pos (by simpa using hl)] at h
    exact absurd h (by simp)

/-- All that a path leads through are directories. -/
theorem isDirectory_of_follow_append (h : t.follow l (front ++ back) = some k)
    (hk : t.isDirectory k) : t.isDirectory (resolve l front) := by
  rw [follow_append] at h
  obtain ⟨m, hm, hback⟩ := Option.bind_eq_some_iff.mp h
  rw [← eq_resolve_of_follow hm]
  exact isDirectory_of_follow hback hk

/-- Directories that are there are not made again. -/
theorem makeDirectories_of_follow (h : t.follow l parts = some k) (hk : t.isDirectory k) :
    t.makeDirectories l parts = (t, true) := by
  induction parts generalizing l with
  | nil => rfl
  | cons part rest ih =>
    have hl := isDirectory_of_follow h hk
    rw [follow, if_neg (by simpa using hl)] at h
    rw [makeDirectories]
    split at h
    · next hup => rw [if_pos hup, ih h]
    · next hdown =>
      split at h
      · have hpart := isDirectory_iff.mp (isDirectory_of_follow h hk)
        rw [if_neg hdown, hpart]
        exact ih h
      · exact absurd h (by simp)

/-- Directories along a way are made along its front, and then along its back. -/
theorem makeDirectories_append (h : t.makeDirectories l front = (u, true)) :
    t.makeDirectories l (front ++ back) = u.makeDirectories (resolve l front) back := by
  fun_induction makeDirectories t l front with
  | case1 t l =>
    obtain ⟨rfl, -⟩ := Prod.mk.inj h
    rfl
  | case2 t l rest ih =>
    rw [List.cons_append, makeDirectories, if_pos rfl, resolve, if_pos rfl, ih h]
  | case3 t l part rest hdown hdirectory ih =>
    rw [List.cons_append, makeDirectories, if_neg hdown, hdirectory, resolve, if_neg hdown]
    exact ih h
  | case4 => exact absurd h (by simp)
  | case5 t l part rest hdown hnone hname ih =>
    rw [List.cons_append, makeDirectories, if_neg hdown, hnone, resolve, if_neg hdown]
    simp only [hname, if_true]
    exact ih h
  | case6 => exact absurd h (by simp)

/-! ## Order -/

/-- The path leads to a directory. All that is in it are directories, and all that is in these are
files. -/
structure Orderly (path : String) (t : Tree) : Prop where
  leads : t.follow [] (Path.parts path) = some (resolve [] (Path.parts path))
  isDirectory : t.isDirectory (resolve [] (Path.parts path))
  notFile : ∀ name bytes, t.node? (resolve [] (Path.parts path) ++ [name]) ≠ some (.file bytes)
  notDirectory : ∀ name file, ¬ t.isDirectory (resolve [] (Path.parts path) ++ [name, file])

/-- The directory at the path can be made, or is there, and is in order then. -/
def Prepared (path : String) (t : Tree) : Prop :=
  ∃ u, t.makeDirectories [] (Path.parts path) = (u, true) ∧ u.Orderly path

/-- Where a run has been going, it can go on. -/
theorem Orderly.prepared (h : t.Orderly path) : t.Prepared path :=
  ⟨t, makeDirectories_of_follow h.leads h.isDirectory, h⟩

/-- Directories stay directories, whatever is put elsewhere. -/
theorem isDirectory_put (hl : l ≠ []) {node : Node}
    (h : t.isDirectory l → node = .directory) (hk : t.isDirectory k) :
    (t.put l node).isDirectory k := by
  rw [isDirectory_iff] at hk ⊢
  rw [node?_put hl]
  split
  · next heq =>
    subst heq
    rw [h (isDirectory_iff.mpr hk)]
  · exact hk

/-- A directory made in an orderly place leaves it orderly. -/
theorem Orderly.put_directory (h : t.Orderly path) (name : String) :
    (t.put (resolve [] (Path.parts path) ++ [name]) .directory).Orderly path := by
  have hne : resolve [] (Path.parts path) ++ [name] ≠ [] := by simp
  have hdirs : ∀ k, t.isDirectory k →
      (t.put (resolve [] (Path.parts path) ++ [name]) .directory).isDirectory k :=
    fun k hk => isDirectory_put hne (fun _ => rfl) hk
  refine ⟨follow_of_follow hdirs h.leads, hdirs _ h.isDirectory, fun other bytes => ?_,
    fun other file => ?_⟩
  · rw [node?_put hne]
    split
    · simp
    · exact h.notFile other bytes
  · rw [isDirectory_iff, node?_put hne, if_neg (by simp), ← isDirectory_iff]
    exact h.notDirectory other file

/-- A file put into a directory of an orderly place leaves it orderly. -/
theorem Orderly.put_file (h : t.Orderly path) (name file : String) (bytes : List UInt8) :
    (t.put (resolve [] (Path.parts path) ++ [name, file]) (.file bytes)).Orderly path := by
  have hne : resolve [] (Path.parts path) ++ [name, file] ≠ [] := by simp
  have hdirs : ∀ k, t.isDirectory k →
      (t.put (resolve [] (Path.parts path) ++ [name, file]) (.file bytes)).isDirectory k :=
    fun k hk => isDirectory_put hne (fun hdir => absurd hdir (h.notDirectory name file)) hk
  refine ⟨follow_of_follow hdirs h.leads, hdirs _ h.isDirectory, fun other bytes' => ?_,
    fun other file' => ?_⟩
  · rw [node?_put hne, if_neg (by simp)]
    exact h.notFile other bytes'
  · rw [isDirectory_iff, node?_put hne]
    split
    · simp
    · rw [← isDirectory_iff]
      exact h.notDirectory other file'

/-! ## Changes that keep order -/

/-- A directory can be made in one that is in order. -/
theorem Prepared.exists_perform (h : t.Prepared path) (hname : Path.IsPlain name)
    (hgood : Files.isName name) (hpath : Files.isPath (Path.join path name)) :
    ∃ u, t.perform (.makeDirectory (Path.join path name)) = (u, none) ∧ u.Orderly path ∧
      u.isDirectory (resolve [] (Path.parts path) ++ [name]) := by
  obtain ⟨v, hmade, horderly⟩ := h
  have hdots : name ≠ ".." := hname.ne_dots
  have hmake : t.makeDirectory (Path.join path name) =
      v.makeDirectories (resolve [] (Path.parts path)) [name] := by
    rw [makeDirectory, Path.endsInDot_join hname, Path.parts_join hname.notMem, hname.parts_eq,
      makeDirectories_append hmade]
    simp [hpath]
  rw [perform, hmake, makeDirectories, if_neg hdots]
  rcases hnode : v.node? (resolve [] (Path.parts path) ++ [name]) with _ | _ | bytes
  · refine ⟨_, by simp [hgood, makeDirectories], horderly.put_directory name, ?_⟩
    rw [isDirectory_iff, node?_put (by simp), if_pos rfl]
  · exact ⟨v, rfl, horderly, isDirectory_iff.mpr hnode⟩
  · exact absurd hnode (horderly.notFile name bytes)

/-- A directory can only be made at what is a path. -/
theorem isPath_of_perform_makeDirectory (h : t.perform (.makeDirectory path) = (u, none)) :
    isPath path := by
  by_contra hpath
  rw [perform, makeDirectory, if_pos (by simpa using hpath)] at h
  exact absurd h (by simp)

/-- In a directory of one that is in order, the file can be put under the path that leads to it. -/
theorem Orderly.write_eq_ok (h : t.Orderly path) (hname : Path.IsPlain name)
    (hgood : Files.isName name) (hdir : t.isDirectory (resolve [] (Path.parts path) ++ [name]))
    (hfile : Path.IsPlain file) (hfits : Fits (Path.join path name) file) :
    t.write (Path.join (Path.join path name) file) bytes =
      .ok (t.put (resolve [] (Path.parts path) ++ [name, file]) (.file bytes)) := by
  have hlocate : t.locate? (Path.parent (Path.join (Path.join path name) file)) =
      some (resolve [] (Path.parts path) ++ [name]) := by
    refine locate?_eq_some_iff.mpr ⟨isPath_mono (Path.prefix_parent _) hfits.isPath, ?_⟩
    rw [Path.parts_parent_join hfile.notMem, Path.parts_join hname.notMem, hname.parts_eq,
      follow_append, h.leads]
    simp [follow, h.isDirectory, hname.ne_dots, hgood]
  have hlast : (Path.parts (Path.join (Path.join path name) file)).getLast? = some file := by
    rw [Path.parts_join hfile.notMem, hfile.parts_eq, List.getLast?_concat]
  have hfree := h.notDirectory name file
  rw [write, hlocate, hlast]
  simp [hdir, hfits.isPath, hfits.isName, hfree]

/-- A file that has been put in such a directory by its name leaves it in order. -/
theorem Orderly.of_write (h : t.Orderly path) (hname : Path.IsPlain name)
    (hdir : t.isDirectory (resolve [] (Path.parts path) ++ [name])) (hfile : Path.IsPlain file)
    (hwrite : t.write (Path.join (Path.join path name) file) bytes = .ok u) :
    u.Orderly path ∧ u.isDirectory (resolve [] (Path.parts path) ++ [name]) ∧
      Fits (Path.join path name) file := by
  have hput := eq_put_of_write hfile hwrite
  rw [resolve_join hfile, resolve_join hname, List.append_assoc, List.cons_append,
    List.nil_append] at hput
  obtain ⟨l, last, -, hlast, -, hpath, hisName, -, -⟩ := exists_of_write hwrite
  rw [Path.parts_join hfile.notMem, hfile.parts_eq, List.getLast?_concat] at hlast
  obtain rfl := Option.some.inj hlast
  rw [hput]
  refine ⟨h.put_file name file bytes, ?_, hfile.notMem, hisName, hpath⟩
  exact isDirectory_put (by simp) (fun hfull => absurd hfull (h.notDirectory name file)) hdir

/-- Nothing can be put in such a directory under a text with slashes. -/
theorem Orderly.write_ne_ok (h : t.Orderly path) (hname : Path.IsPlain name)
    (hfile : Path.IsEntry file) (hslash : '/' ∈ file.toList) :
    t.write (Path.join (Path.join path name) file) bytes ≠ .ok u := by
  intro hwrite
  obtain ⟨first, front, hfirst, hparts⟩ :=
    hfile.exists_parts_parent_join hslash (Path.join path name)
  obtain ⟨l, -, hl, -, hdir, -⟩ := exists_of_write hwrite
  have hfollow := (locate?_eq_some_iff.mp hl).2
  rw [hparts, List.append_cons] at hfollow
  -- the way leads through the place of a file
  have hthrough := isDirectory_of_follow_append hfollow hdir
  rw [resolve_append, resolve_join hname, resolve, if_neg hfirst.ne_dots, resolve,
    List.append_assoc] at hthrough
  exact h.notDirectory name first hthrough

end Tree

/-! ## Many changes -/

namespace Folder

/-- The names are such that nothing but the files is put, and there is one. -/
structure Proper (f : Folder) : Prop where
  isPlain : Path.IsPlain f.name
  isName : Files.isName f.name
  isEntry : ∀ e ∈ f.files, Path.IsEntry e.1
  ne_nil : f.files ≠ []

/-- All files can be put in the directory by their names. -/
def Fits (path : String) (f : Folder) : Prop :=
  ∀ e ∈ f.files, Files.Fits (Path.join path f.name) e.1

end Folder

namespace Tree

variable {t u after : Tree} {path name : String} {files : List (String × List UInt8)}
  {folders : List Folder}

/-- The files of a folder are written exactly if all their names fit, and the place stays orderly.
-/
theorem Orderly.performAll_files (h : t.Orderly path) (hname : Path.IsPlain name)
    (hgood : isName name) (hdir : t.isDirectory (resolve [] (Path.parts path) ++ [name]))
    (hfiles : ∀ e ∈ files, Path.IsEntry e.1) :
    let actions := files.map fun e => Action.write (Path.join (Path.join path name) e.1) e.2
    ((∃ after, t.performAll actions = (after, none)) ↔
        ∀ e ∈ files, Fits (Path.join path name) e.1) ∧
      ∀ after, t.performAll actions = (after, none) → after.Orderly path := by
  induction files generalizing t with
  | nil =>
    refine ⟨⟨fun _ => nofun, fun _ => ⟨t, rfl⟩⟩, fun after hafter => ?_⟩
    obtain rfl : t = after := congrArg Prod.fst hafter
    exact h
  | cons e rest ih =>
    obtain ⟨file, bytes⟩ := e
    obtain ⟨hfile, hrest⟩ := List.forall_mem_cons.mp hfiles
    simp only [List.map_cons, performAll_cons_eq_none_iff, perform_write_eq_none_iff,
      List.forall_mem_cons]
    -- one write: it is refused at a slash, and otherwise keeps the place orderly
    have hstep : ∀ u, t.write (Path.join (Path.join path name) file) bytes = .ok u →
        u.Orderly path ∧ u.isDirectory (resolve [] (Path.parts path) ++ [name]) ∧
          Fits (Path.join path name) file := by
      intro u hu
      by_cases hslash : '/' ∈ file.toList
      · exact absurd hu (h.write_ne_ok hname hfile hslash)
      · exact h.of_write hname hdir (hfile.isPlain hslash) hu
    constructor
    -- the files behind the first are written to the tree that the first leaves
    · constructor
      · rintro ⟨after, u, hu, hafter⟩
        obtain ⟨horderly, hdir', hfits⟩ := hstep u hu
        exact ⟨hfits, (ih horderly hdir' hrest).1.mp ⟨after, hafter⟩⟩
      · rintro ⟨hfits, hall⟩
        have hu : t.write (Path.join (Path.join path name) file) bytes = .ok _ :=
          h.write_eq_ok hname hgood hdir (hfile.isPlain hfits.notMem) hfits
        obtain ⟨horderly, hdir', -⟩ := hstep _ hu
        obtain ⟨after, hafter⟩ := (ih horderly hdir' hrest).1.mpr hall
        exact ⟨after, _, hu, hafter⟩
    · rintro after ⟨u, hu, hafter⟩
      obtain ⟨horderly, hdir', -⟩ := hstep u hu
      exact (ih horderly hdir' hrest).2 after hafter

/-- A folder is written exactly if it fits, and leaves the place orderly. -/
theorem Prepared.performAll_actions {f : Folder} (h : t.Prepared path) (hf : f.Proper) :
    ((∃ after, t.performAll (f.actions path) = (after, none)) ↔ f.Fits path) ∧
      ∀ after, t.performAll (f.actions path) = (after, none) → after.Orderly path := by
  -- making the directory of the folder puts the place in order
  have hstep : ∀ u, t.perform (.makeDirectory (Path.join path f.name)) = (u, none) →
      u.Orderly path ∧ u.isDirectory (resolve [] (Path.parts path) ++ [f.name]) := by
    intro u hu
    obtain ⟨v, hv, hmade⟩ :=
      h.exists_perform hf.isPlain hf.isName (isPath_of_perform_makeDirectory hu)
    obtain rfl : u = v := congrArg Prod.fst (hu.symm.trans hv)
    exact hmade
  -- and what is written into it afterwards is known from there
  have hwrites : ∀ u : Tree, u.Orderly path →
      u.isDirectory (resolve [] (Path.parts path) ++ [f.name]) →
        ((∃ after, u.performAll (f.writes path) = (after, none)) ↔ f.Fits path) ∧
          ∀ after, u.performAll (f.writes path) = (after, none) → after.Orderly path :=
    fun u horderly hdir =>
      horderly.performAll_files hf.isPlain hf.isName hdir hf.isEntry
  rw [Folder.actions]
  simp only [performAll_cons_eq_none_iff]
  constructor
  · constructor
    · rintro ⟨after, u, hu, hafter⟩
      obtain ⟨horderly, hdir⟩ := hstep u hu
      exact (hwrites u horderly hdir).1.mp ⟨after, hafter⟩
    · intro hfits
      -- a file that fits is named behind its directory, so the directory can be named as well
      obtain ⟨e, he⟩ := List.exists_mem_of_ne_nil _ hf.ne_nil
      have hpath := isPath_mono
        (Path.prefix_join (Path.head?_ne_of_notMem (hfits e he).notMem)) (hfits e he).isPath
      obtain ⟨u, hu, horderly, hdir⟩ := h.exists_perform hf.isPlain hf.isName hpath
      obtain ⟨after, hafter⟩ := (hwrites u horderly hdir).1.mpr hfits
      exact ⟨after, u, hu, hafter⟩
  · rintro after ⟨u, hu, hafter⟩
    obtain ⟨horderly, hdir⟩ := hstep u hu
    exact (hwrites u horderly hdir).2 after hafter

/-- **Only names are refused.** In a directory that can be made and is in order then, directories
can be made and files be put in them exactly if all files can be put by their names. -/
theorem Prepared.performAll_iff (h : t.Prepared path) (hfolders : ∀ f ∈ folders, f.Proper) :
    (∃ after, t.performAll (folders.flatMap (Folder.actions path)) = (after, none)) ↔
      ∀ f ∈ folders, f.Fits path := by
  induction folders generalizing t with
  | nil => exact ⟨fun _ => nofun, fun _ => ⟨t, rfl⟩⟩
  | cons f rest ih =>
    obtain ⟨hf, hrest⟩ := List.forall_mem_cons.mp hfolders
    obtain ⟨hone, horderly⟩ := h.performAll_actions hf
    rw [List.flatMap_cons, List.forall_mem_cons, ← hone]
    simp only [performAll_append_eq_none_iff]
    constructor
    · rintro ⟨after, u, hu, hafter⟩
      exact ⟨⟨u, hu⟩, (ih (horderly u hu).prepared hrest).mp ⟨after, hafter⟩⟩
    · rintro ⟨⟨u, hu⟩, hall⟩
      obtain ⟨after, hafter⟩ := (ih (horderly u hu).prepared hrest).mpr hall
      exact ⟨after, u, hu, hafter⟩

/-! ## Directories that are new -/

/-- All that there is lies in a directory, and all of it has names. -/
structure Sound (t : Tree) : Prop where
  isDirectory : ∀ k ∈ t.keys, t.isDirectory k.dropLast
  isName : ∀ k ∈ t.keys, ∀ name ∈ k, isName name

/-- A way that never goes up is walked as it is written. -/
theorem resolve_of_notMem {l : Location} {parts : List String} (h : ".." ∉ parts) :
    resolve l parts = l ++ parts := by
  induction parts generalizing l with
  | nil => exact (List.append_nil l).symm
  | cons part rest ih =>
    rw [List.mem_cons, not_or] at h
    rw [resolve, if_neg (Ne.symm h.1), ih h.2, List.append_assoc, List.singleton_append]

/-- Making directories leaves those that are there. -/
theorem isDirectory_makeDirectories {k l : Location} {parts : List String}
    (h : t.makeDirectories l parts = (u, true)) (hk : t.isDirectory k) : u.isDirectory k := by
  have hnode := node?_makeDirectories t l parts k
  rw [h, isDirectory_iff.mp hk] at hnode
  exact isDirectory_iff.mpr (hnode.resolve_right (by simp))

/-- Directories that have been made are there, and nothing else is new. -/
theorem follow_makeDirectories {l : Location} {parts : List String} (hdots : ".." ∉ parts)
    (hl : t.isDirectory l) (hnames : ∀ k name, t.isDirectory (k ++ [name]) → isName name)
    (h : t.makeDirectories l parts = (u, true)) :
    u.follow l parts = some (l ++ parts) ∧ u.isDirectory (l ++ parts) ∧
      ∀ k, ¬ k <+: l ++ parts → u.node? k = t.node? k := by
  -- on the directories that are made, one case for each way in which a part is met
  fun_induction makeDirectories t l parts with
  | case1 t l =>
    obtain ⟨rfl, -⟩ := Prod.mk.inj h
    rw [List.append_nil]
    exact ⟨rfl, hl, fun k _ => rfl⟩
  | case2 => exact absurd List.mem_cons_self hdots
  | case3 t l part rest hdown hdirectory ih =>
    have hhere := isDirectory_iff.mpr hdirectory
    obtain ⟨hleads, hdir, hsame⟩ := ih (List.not_mem_of_not_mem_cons hdots) hhere hnames h
    rw [List.append_assoc, List.singleton_append] at hleads hdir hsame
    refine ⟨?_, hdir, hsame⟩
    -- the part is a directory already, and the rest of the way begins there
    rw [follow, if_neg (by simpa using isDirectory_makeDirectories h hl), if_neg hdown,
      if_pos (hnames l part hhere), hleads]
  | case4 => exact absurd h (by simp)
  | case5 t l part rest hdown hnone hname ih =>
    have hne : l ++ [part] ≠ [] := by simp
    -- the new directory hides none that was there, and has a name that is one
    have hkept : ∀ k, t.isDirectory k → (t.put (l ++ [part]) .directory).isDirectory k :=
      fun k hk => isDirectory_put hne (fun _ => rfl) hk
    have hnames' : ∀ k name, (t.put (l ++ [part]) .directory).isDirectory (k ++ [name]) →
        isName name := by
      intro k name hk
      rw [isDirectory_iff, node?_put hne] at hk
      split at hk
      · next heq =>
        obtain rfl : name = part := by simpa using List.append_inj_right' heq rfl
        exact hname
      · exact hnames k name (isDirectory_iff.mpr hk)
    have hhere : (t.put (l ++ [part]) .directory).isDirectory (l ++ [part]) := by
      rw [isDirectory_iff, node?_put hne, if_pos rfl]
    obtain ⟨hleads, hdir, hsame⟩ := ih (List.not_mem_of_not_mem_cons hdots) hhere hnames' h
    rw [List.append_assoc, List.singleton_append] at hleads hdir hsame
    refine ⟨?_, hdir, fun k hk => ?_⟩
    · rw [follow, if_neg (by simpa using isDirectory_makeDirectories h (hkept l hl)), if_neg hdown,
        if_pos hname, hleads]
    -- what is put is on the way, so nothing off the way is new
    · rw [hsame k hk, node?_put hne, if_neg]
      rintro rfl
      exact hk ⟨rest, by simp⟩
  | case6 => exact absurd h (by simp)

/-- What is not there has nothing in it. -/
theorem Sound.node?_append_eq_none {l : Location} (h : t.Sound) (hl : t.node? l = none)
    (k : Location) : t.node? (l ++ k) = none := by
  induction k using List.reverseRecOn with
  | nil => rwa [List.append_nil]
  | append_singleton k name ih =>
    by_contra hnode
    obtain ⟨node, hnode⟩ := Option.ne_none_iff_exists'.mp hnode
    have hdir := h.isDirectory _ (mem_keys_of_node? (by simp) hnode)
    rw [← List.append_assoc, List.dropLast_concat, isDirectory_iff, ih] at hdir
    exact absurd hdir (by simp)

/-- A directory that is not there yet is in order when it has been made. -/
theorem Sound.prepared (h : t.Sound) (hdots : ".." ∉ Path.parts path)
    (hnew : t.node? (Path.parts path) = none)
    (hmade : (t.makeDirectories [] (Path.parts path)).2 = true) : t.Prepared path := by
  have hnames : ∀ k name, t.isDirectory (k ++ [name]) → Files.isName name := fun k name hdir =>
    h.isName _ (mem_keys_of_node? (by simp) (isDirectory_iff.mp hdir)) name (by simp)
  obtain ⟨hleads, hdir, hsame⟩ :=
    follow_makeDirectories (l := []) hdots (by rfl) hnames (Prod.ext rfl hmade)
  rw [List.nil_append] at hleads hdir hsame
  -- nothing was there, and only directories on the way are new, so nothing is in the new one
  have hvacant : ∀ k ≠ [], (t.makeDirectories [] (Path.parts path)).1.node?
      (Path.parts path ++ k) = none := by
    intro k hk
    rw [hsame _ fun hfront => ?_, h.node?_append_eq_none hnew]
    have hlength := hfront.length_le
    rw [List.length_append] at hlength
    exact hk (List.length_eq_zero_iff.mp (by omega))
  refine ⟨_, Prod.ext rfl hmade, ?_, ?_, fun name bytes => ?_, fun name file => ?_⟩ <;>
    rw [resolve_of_notMem hdots, List.nil_append]
  · exact hleads
  · exact hdir
  · rw [hvacant _ (by simp)]
    simp
  · rw [isDirectory_iff, hvacant _ (by simp)]
    simp

end Tree

end Dialect.Files

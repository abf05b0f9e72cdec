import Dialect.Proofs.Files.Moment

/-!
# Work within a directory

Changes whose files all go below a directory (`Action.Within`) leave alone what is elsewhere: each
operation of the work on them does (`Moment.Contained.next`), the making and the removal of a file
that is not in its place yet included, and so does the work as a whole (`Moment.Reaches.contained`).
Directories are another matter: those around the one of a file may be made anywhere.
-/

namespace Dialect.Files

/-- The location is below the directory at `base`. -/
def Below (base k : Location) : Prop := base <+: k ∧ k ≠ base

instance (base k : Location) : Decidable (Below base k) :=
  inferInstanceAs (Decidable (base <+: k ∧ k ≠ base))

variable {base k l : Location} {path name : String} {bytes : List UInt8}

/-- What has a name in a directory is below another if this directory is that one or below it. -/
theorem below_concat_iff : Below base (l ++ [name]) ↔ base <+: l := by
  rw [Below, List.prefix_concat_iff]
  constructor
  · rintro ⟨heq | hl, hne⟩
    · exact absurd heq.symm hne
    · exact hl
  · intro hl
    refine ⟨.inr hl, ?_⟩
    rintro rfl
    have hlength := hl.length_le
    rw [List.length_append, List.length_singleton] at hlength
    omega

/-- What is below a location is not the root. -/
theorem Below.ne_nil (h : Below base k) : k ≠ [] := by
  rintro rfl
  exact h.2 (List.prefix_nil.mp h.1).symm

/-! ## What is elsewhere -/

namespace Tree

/-- What is not below a directory is in one tree as in the other, but that there may be a directory
where there was nothing. -/
def SameOutside (base : Location) (t u : Tree) : Prop :=
  ∀ k, ¬ Below base k →
    u.node? k = t.node? k ∨ t.node? k = none ∧ u.node? k = some .directory

variable {t u v : Tree}

/-- A tree is the same as itself. -/
theorem SameOutside.refl (base : Location) (t : Tree) : SameOutside base t t :=
  fun _ _ => .inl rfl

/-- What two changes in a row leave alone, they leave alone together. -/
theorem SameOutside.trans (h : SameOutside base t u) (h' : SameOutside base u v) :
    SameOutside base t v := by
  intro k hk
  rcases h' k hk with hsame' | ⟨hnone', hmade'⟩
  · rw [hsame']
    exact h k hk
  · rcases h k hk with hsame | ⟨-, hmade⟩
    · exact .inr ⟨by rw [← hsame, hnone'], hmade'⟩
    · rw [hmade] at hnone'
      exact absurd hnone' (by simp)

/-- The files elsewhere are the same. -/
theorem SameOutside.file?_eq (h : SameOutside base t u) (hk : ¬ Below base k) :
    u.file? k = t.file? k := by
  rcases h k hk with hsame | ⟨hnone, hmade⟩
  · rw [file?, file?, hsame]
  · rw [file?, file?, hnone, hmade]

/-- Putting something below a location leaves alone what is outside. -/
theorem sameOutside_put (h : Below base k) (node : Node) : SameOutside base t (t.put k node) := by
  intro j hj
  rw [node?_put h.ne_nil, if_neg]
  · exact .inl rfl
  · rintro rfl
    exact hj h

/-- Removing something below a location leaves alone what is outside. -/
theorem sameOutside_remove (h : Below base k) : SameOutside base t (t.remove k) := by
  intro j hj
  rw [node?_remove h.ne_nil, if_neg]
  · exact .inl rfl
  · rintro rfl
    exact hj h

end Tree

/-! ## Work -/

/-- The change puts no file but below the directory. -/
def Action.Within (base : Location) : Action → Prop
  | .makeDirectory _ => True
  | .write path _ => base <+: resolve [] (Path.parts (Path.parent path))

/-- A change that has a place, or puts nothing, stays within a directory exactly if its place is
below it. -/
theorem Action.within_iff {action : Action} (h : action.isWrite → action.place?.isSome) :
    action.Within base ↔ ∀ k, action.place? = some k → Below base k := by
  cases action with
  | makeDirectory path => exact ⟨fun _ _ => nofun, fun _ => trivial⟩
  | write path bytes =>
    obtain ⟨k, hplace⟩ := Option.isSome_iff_exists.mp (h rfl)
    obtain ⟨name, -, rfl⟩ := Option.map_eq_some_iff.mp hplace
    have hbelow : Below base (resolve [] (Path.parts (Path.parent path)) ++ [name]) ↔ _ :=
      below_concat_iff
    rw [hplace, Within, ← hbelow]
    simp

/-- A file is put where all parts of its text but the last lead to from the directory. -/
theorem within_write_iff {directory file : String} (h : Path.IsEntry file) :
    (Action.write (Path.join directory file) bytes).Within base ↔
      base <+: resolve (resolve [] (Path.parts directory)) (Path.parts file).dropLast := by
  rw [Action.Within, h.parts_parent_join, resolve_append]

/-- A change that writes an entry of a directory has a place. -/
theorem isSome_place?_write {directory file : String} (h : Path.IsEntry file) :
    (Action.write (Path.join directory file) bytes).place?.isSome := by
  obtain ⟨name, -, hparts⟩ := h.exists_parts_join_eq directory
  rw [Action.place?, hparts, List.getLast?_concat]
  rfl

namespace Folder

variable {f : Folder}

/-- The changes of a folder stay within a location exactly if every file of the folder goes to a
directory there. -/
theorem within_actions_iff (h : ∀ e ∈ f.files, Path.IsEntry e.1) :
    (∀ action ∈ f.actions path, action.Within base) ↔
      ∀ e ∈ f.files, base <+:
        resolve (resolve [] (Path.parts (Path.join path f.name))) (Path.parts e.1).dropLast := by
  rw [actions, writes, List.forall_mem_cons, List.forall_mem_map, Action.Within, true_and]
  exact forall₂_congr fun e he => within_write_iff (h e he)

/-- The files of a folder are written at places, provided that their names are entries. -/
theorem isSome_place?_of_mem_actions (h : ∀ e ∈ f.files, Path.IsEntry e.1) {action : Action}
    (haction : action ∈ f.actions path) (hwrite : action.isWrite) : action.place?.isSome := by
  rcases List.mem_cons.mp haction with rfl | hmem
  · exact absurd hwrite (by simp [Action.isWrite])
  · obtain ⟨e, he, rfl⟩ := List.mem_map.mp hmem
    exact isSome_place?_write (h e he)

end Folder

namespace Moment

/-- What holds at every moment of work within a directory. -/
structure Contained (base : Location) (t : Tree) (m : Moment) : Prop where
  outside : t.SameOutside base m.tree
  beside : ∀ k, m.beside = some k → Below base k
  left : ∀ action ∈ m.left, action.Within base

variable {t : Tree} {actions : List Action} {m m' : Moment}

/-- Moment by moment, a run that is contained stays contained. -/
theorem Contained.next (h : m.Contained base t) (hnext : Next m m') : m'.Contained base t := by
  obtain ⟨houtside, hbeside, hleft⟩ := h
  cases hnext with
  | enter hparts =>
    exact ⟨houtside.trans fun k _ => Tree.node?_makeDirectories _ [] _ k, nofun, hleft⟩
  | @directory u v made left path hmade =>
    have hmade' : u.SameOutside base v := by
      intro k _
      have hnode := Tree.node?_makeDirectory u path k
      rwa [hmade] at hnode
    exact ⟨houtside.trans hmade', nofun, (List.forall_mem_cons.mp hleft).2⟩
  | @create u made left path name bytes l hl hdir hfree =>
    -- the file is made in the directory in which its place is
    have hwithin : base <+: l := by
      rw [Tree.eq_resolve_of_locate? hl]
      exact (List.forall_mem_cons.mp hleft).1
    have hbelow : Below base (l ++ [name]) := below_concat_iff.mpr hwithin
    refine ⟨houtside.trans (Tree.sameOutside_put hbelow _), fun k hk => ?_, hleft⟩
    exact Option.some.inj hk ▸ hbelow
  | fill n =>
    exact ⟨houtside.trans (Tree.sameOutside_put (hbeside _ rfl) _), hbeside, hleft⟩
  | @rename u v made left path bytes k hfull hput =>
    obtain ⟨l, name, hl, -, -, -, -, -, rfl⟩ := Tree.exists_of_write hput
    obtain ⟨hwithin, hrest⟩ := List.forall_mem_cons.mp hleft
    rw [Action.Within, ← Tree.eq_resolve_of_locate? hl] at hwithin
    have hremoved : u.SameOutside base (u.remove k) := Tree.sameOutside_remove (hbeside k rfl)
    have hbelow : Below base (l ++ [name]) := below_concat_iff.mpr hwithin
    exact ⟨(houtside.trans hremoved).trans (Tree.sameOutside_put hbelow _), nofun, hrest⟩

/-- A run whose changes all stay within a location is contained there at every moment. -/
theorem Reaches.contained (h : Reaches t actions m)
    (hwithin : ∀ action ∈ actions, action.Within base) : m.Contained base t := by
  induction h with
  | refl => exact ⟨.refl base t, nofun, hwithin⟩
  | tail _ hnext ih => exact ih.next hnext

/-- Nor is anything else left elsewhere when the work is given up. -/
theorem Contained.sameOutside_stop (h : m.Contained base t) : t.SameOutside base m.stop := by
  rw [stop]
  split
  · exact h.outside
  · next k hk => exact h.outside.trans (Tree.sameOutside_remove (h.beside k hk))

end Moment

/-! ## Files that are there in the end -/

/-- When all changes have been made, there is a file at the place of each. -/
theorem Tree.exists_file_of_performAll {t after : Tree} {actions : List Action}
    (h : t.performAll actions = (after, none)) {action : Action} (haction : action ∈ actions)
    (hplace : action.place? = some k) : ∃ bytes, after.node? k = some (.file bytes) := by
  obtain ⟨m, hm, hstop, hleft⟩ := Moment.exists_reaches t actions
  simp only [h] at hstop hleft
  have hmade : m.made = actions := by
    rw [← hm.sound.split, hleft.mpr trivial, List.append_nil]
  have hput : action.put? k ≠ none := fun hnone => Action.put?_eq_none_iff.mp hnone hplace
  have hlast : actions.reverse.findSome? (Action.put? k) ≠ none := fun hnone =>
    hput (List.findSome?_eq_none_iff.mp hnone action (List.mem_reverse.mpr haction))
  obtain ⟨bytes, hbytes⟩ := Option.ne_none_iff_exists'.mp hlast
  refine ⟨bytes, Tree.file?_eq_some_iff.mp ?_⟩
  rw [← hstop, hm.file?_stop, hmade, Tree.contents, hbytes, Option.some_or]

end Dialect.Files

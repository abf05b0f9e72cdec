import Dialect.Proofs.Files.Agreement
import Mathlib.Data.Fintype.EquivFin
import Mathlib.Logic.Relation

/-!
# Changes at work

A change takes several operations of the file system: directories are made one by one, and a file is
made under a name that nothing has, filled there, and then moved to its place. Work on a list of
changes can be given up behind any of these operations, and the file that is not in its place yet is
removed then. What is left holds, file by file, what the changes made so far have put there last
(`Moment.Reaches.file?_stop`); a change that is half done does not show. Performing the changes
one after the other up to a refusal is work of this kind (`Moment.exists_reaches`).
-/

namespace Dialect.Files

/-- The change puts a file. -/
def Action.isWrite : Action → Bool
  | .makeDirectory _ => false
  | .write _ _ => true

/-- What a change puts at a location, if anything. -/
def Action.put? (k : Location) : Action → Option (List UInt8)
  | .makeDirectory _ => none
  | .write path bytes => if (Action.write path bytes).place? = some k then some bytes else none

/-- A change puts nothing where it has no place. -/
theorem Action.put?_eq_none_iff {k : Location} {action : Action} :
    action.put? k = none ↔ action.place? ≠ some k := by
  cases action with
  | makeDirectory path => simp [put?, place?]
  | write path bytes => simp [put?]

/-- A change puts bytes where it writes them. -/
theorem Action.put?_eq_some_iff {k : Location} {action : Action} {bytes : List UInt8} :
    action.put? k = some bytes ↔ ∃ path, action = .write path bytes ∧ action.place? = some k := by
  cases action with
  | makeDirectory path => simp [put?]
  | write path bytes' =>
    rw [put?, Option.ite_none_right_eq_some]
    constructor
    · rintro ⟨hplace, hbytes⟩
      exact ⟨path, by rw [Option.some.inj hbytes], hplace⟩
    · rintro ⟨path', haction, hplace⟩
      obtain ⟨-, rfl⟩ := Action.write.inj haction
      exact ⟨hplace, rfl⟩

namespace Tree

variable {t u : Tree} {k l : Location} {made : List Action} {bytes : List UInt8}

/-- What the file at a location holds, if there is one. -/
def file? (t : Tree) (k : Location) : Option (List UInt8) :=
  match t.node? k with
  | some (.file bytes) => some bytes
  | _ => none

/-- What the file at a location holds when changes have been made: what the last of them has put
there, or what it held before. -/
def contents (t : Tree) (made : List Action) (k : Location) : Option (List UInt8) :=
  (made.reverse.findSome? (Action.put? k)).or (t.file? k)

/-- The tree without what is at a location. -/
def remove (t : Tree) (l : Location) : Tree := ⟨t.nodes.filter (·.1 != l)⟩

/-! ## What files hold -/

/-- The bytes of a file are found where there is a file with them. -/
theorem file?_eq_some_iff : t.file? k = some bytes ↔ t.node? k = some (.file bytes) := by
  rw [file?]
  split
  · next bytes' hfile => simp [hfile]
  · next hother =>
    refine ⟨nofun, fun h => ?_⟩
    exact absurd h (hother bytes)

/-- A file that is put stands at its place, and the others as before. -/
theorem file?_put (hl : l ≠ []) :
    (t.put l (.file bytes)).file? k = if k = l then some bytes else t.file? k := by
  rw [file?, node?_put hl]
  by_cases hk : k = l
  · rw [if_pos hk, if_pos hk]
  · rw [if_neg hk, if_neg hk, file?]

/-- What is removed is no longer at its place, and all else is as before. -/
theorem node?_remove (hl : l ≠ []) :
    (t.remove l).node? k = if k = l then none else t.node? k := by
  rw [node?, node?, remove]
  by_cases hk : k = l
  · subst hk
    rw [if_neg hl, if_pos rfl]
    refine List.lookup_eq_none_iff.mpr fun entry hentry => ?_
    have hne : entry.1 ≠ k := by simpa using (List.mem_filter.mp hentry).2
    simpa using hne.symm
  · rw [if_neg hk, lookup_filter hk]

/-- A file that is removed is gone, and the others are as before. -/
theorem file?_remove (hl : l ≠ []) :
    (t.remove l).file? k = if k = l then none else t.file? k := by
  rw [file?, node?_remove hl]
  by_cases hk : k = l
  · rw [if_pos hk, if_pos hk]
  · rw [if_neg hk, if_neg hk, file?]

/-- Nothing is left of what has been put at a location where there was nothing. -/
theorem remove_put (h : l ∉ t.keys) (node : Node) : (t.put l node).remove l = t := by
  have hall : t.nodes.filter (·.1 != l) = t.nodes := by
    refine List.filter_eq_self.mpr fun entry hentry => bne_iff_ne.mpr ?_
    rintro rfl
    exact h (List.mem_map_of_mem hentry)
  rw [put, remove, hall, List.filter_append, hall]
  simp

/-- What is put last at a place is all that stays there. -/
theorem put_put (node node' : Node) : (t.put l node).put l node' = t.put l node' := by
  simp [put, List.filter_append, List.filter_filter]

/-- Making directories touches no file. -/
theorem file?_makeDirectories (t : Tree) (l : Location) (parts : List String) (k : Location) :
    (t.makeDirectories l parts).1.file? k = t.file? k := by
  rcases node?_makeDirectories t l parts k with hsame | ⟨hnone, hmade⟩
  · rw [file?, file?, hsame]
  · rw [file?, file?, hnone, hmade]

/-- Making a directory does not touch files. -/
theorem file?_makeDirectory (t : Tree) (path : String) (k : Location) :
    (t.makeDirectory path).1.file? k = t.file? k := by
  rcases node?_makeDirectory t path k with hsame | ⟨hnone, hmade⟩
  · rw [file?, file?, hsame]
  · rw [file?, file?, hnone, hmade]

/-- A file that has been put is in its place, and all others are as before. -/
theorem file?_write {path : String} (h : t.write path bytes = .ok u) :
    u.file? k = ((Action.write path bytes).put? k).or (t.file? k) := by
  obtain ⟨l, name, hl, hname, -, -, -, -, rfl⟩ := exists_of_write h
  rw [file?_put (List.append_ne_nil_of_right_ne_nil l (List.cons_ne_nil name [])), Action.put?,
    place?_of_locate? hl hname]
  by_cases hk : k = l ++ [name]
  · rw [if_pos hk, if_pos (by rw [hk]), Option.some_or]
  · rw [if_neg hk, if_neg fun h => hk (Option.some.inj h).symm, Option.none_or]

/-- After one more change a file holds what this change has put there, or what it held before. -/
theorem contents_append (t : Tree) (made : List Action) (action : Action) (k : Location) :
    t.contents (made ++ [action]) k = (action.put? k).or (t.contents made k) := by
  rw [contents, List.reverse_append, List.reverse_singleton, List.singleton_append,
    List.findSome?_cons]
  cases action.put? k with
  | none => rw [Option.none_or, contents]
  | some bytes => rw [Option.some_or, Option.some_or]

/-- Only changes that put files count. -/
theorem contents_filter (t : Tree) (made : List Action) (k : Location) :
    t.contents (made.filter Action.isWrite) k = t.contents made k := by
  induction made using List.reverseRecOn with
  | nil => rfl
  | append_singleton made action ih =>
    rw [contents_append, List.filter_append]
    cases action with
    | makeDirectory path =>
      rw [List.filter_cons_of_neg (by simp [Action.isWrite]), List.filter_nil, List.append_nil, ih]
      rfl
    | write path bytes =>
      rw [List.filter_cons_of_pos rfl, List.filter_nil, contents_append, ih]

/-- A file holds what the last change of it has put there, or what it held before if there is no
such change. -/
theorem contents_eq_some_iff :
    t.contents made k = some bytes ↔
      (∃ front path back, made = front ++ .write path bytes :: back ∧
        (Action.write path bytes).place? = some k ∧ ∀ action ∈ back, action.place? ≠ some k) ∨
      t.node? k = some (.file bytes) ∧ ∀ action ∈ made, action.place? ≠ some k := by
  simp only [contents, Option.or_eq_some_iff, List.findSome?_eq_some_iff,
    List.findSome?_eq_none_iff, List.mem_reverse, Action.put?_eq_none_iff,
    Action.put?_eq_some_iff, file?_eq_some_iff]
  refine or_congr ⟨?_, ?_⟩ and_comm
  · rintro ⟨back, action, front, hsplit, ⟨path, rfl, hplace⟩, hback⟩
    refine ⟨front.reverse, path, back.reverse, ?_, hplace, fun other hother => ?_⟩
    · rw [← List.reverse_reverse made, hsplit]
      simp
    · exact hback other (List.mem_reverse.mp hother)
  · rintro ⟨front, path, back, rfl, hplace, hback⟩
    refine ⟨back.reverse, _, front.reverse, by simp, ⟨path, rfl, hplace⟩, fun other hother => ?_⟩
    exact hback other (List.mem_reverse.mp hother)

/-- There is a name in each directory that nothing has. -/
theorem exists_notMem_keys (t : Tree) (l : Location) : ∃ name, l ++ [name] ∉ t.keys := by
  obtain ⟨name, hname⟩ := Infinite.exists_notMem_finset (t.names l).toFinset
  refine ⟨name, fun hkey => hname ?_⟩
  rwa [List.mem_toFinset, mem_names_iff]

end Tree

/-- A moment of work on a list of changes. -/
structure Moment where
  tree : Tree
  /-- Where the file is that is not in its place yet. -/
  beside : Option Location := none
  /-- The changes that have been made, in order. -/
  made : List Action := []
  /-- The changes that are to be made, in order. -/
  left : List Action

namespace Moment

/-- One operation of the file system goes well. -/
inductive Next : Moment → Moment → Prop where
  /-- Makes some of the directories on the way to one that is to be made. -/
  | enter {t : Tree} {made left : List Action} {path : String} {parts : List String}
      (hparts : parts <+: Path.parts path) :
      Next ⟨t, none, made, .makeDirectory path :: left⟩
        ⟨(t.makeDirectories [] parts).1, none, made, .makeDirectory path :: left⟩
  /-- Makes a directory. -/
  | directory {t u : Tree} {made left : List Action} {path : String}
      (hmade : t.makeDirectory path = (u, true)) :
      Next ⟨t, none, made, .makeDirectory path :: left⟩
        ⟨u, none, made ++ [.makeDirectory path], left⟩
  /-- Makes an empty file beside the place of one that is to be put, under a name that is free. -/
  | create {t : Tree} {made left : List Action} {path name : String} {bytes : List UInt8}
      {l : Location} (hl : t.locate? (Path.parent path) = some l) (hdir : t.isDirectory l)
      (hfree : t.node? (l ++ [name]) = none) :
      Next ⟨t, none, made, .write path bytes :: left⟩
        ⟨t.put (l ++ [name]) (.file []), some (l ++ [name]), made, .write path bytes :: left⟩
  /-- Writes some of the bytes. -/
  | fill {t : Tree} {made left : List Action} {path : String} {bytes : List UInt8} {k : Location}
      (n : Nat) :
      Next ⟨t, some k, made, .write path bytes :: left⟩
        ⟨t.put k (.file (bytes.take n)), some k, made, .write path bytes :: left⟩
  /-- Moves the file, when it holds all the bytes, to its place. -/
  | rename {t u : Tree} {made left : List Action} {path : String} {bytes : List UInt8}
      {k : Location} (hfull : t.node? k = some (.file bytes))
      (hput : (t.remove k).write path bytes = .ok u) :
      Next ⟨t, some k, made, .write path bytes :: left⟩
        ⟨u, none, made ++ [.write path bytes], left⟩

/-- The files that have been put, in order. -/
def writes (m : Moment) : List Action := m.made.filter Action.isWrite

/-- Some operations lead from a tree on which changes are to be made to the moment. -/
def Reaches (t : Tree) (actions : List Action) (m : Moment) : Prop :=
  Relation.ReflTransGen Next ⟨t, none, [], actions⟩ m

/-- What is left when the work is given up: the file that is not in its place is removed. -/
def stop (m : Moment) : Tree :=
  match m.beside with
  | none => m.tree
  | some k => m.tree.remove k

/-- What holds at every moment of work on changes to a tree. -/
structure Sound (t : Tree) (actions : List Action) (m : Moment) : Prop where
  split : m.made ++ m.left = actions
  held : ∀ k, m.beside ≠ some k → m.tree.file? k = t.contents m.made k
  fresh : ∀ k, m.beside = some k → k ≠ [] ∧ t.contents m.made k = none

variable {t u : Tree} {made left actions : List Action} {path : String} {bytes : List UInt8}
  {m m' : Moment}

/-- From one moment to the next, files hold what the changes have put there. -/
theorem Sound.next (h : m.Sound t actions) (hnext : Next m m') : m'.Sound t actions := by
  obtain ⟨hsplit, hheld, hfresh⟩ := h
  cases hnext with
  | enter hparts =>
    -- a directory made on the way holds no bytes
    refine ⟨hsplit, fun j hj => ?_, nofun⟩
    rw [← hheld j hj]
    exact Tree.file?_makeDirectories _ [] _ j
  | @directory u v made left path hmade =>
    refine ⟨by rw [← hsplit, List.append_assoc, List.singleton_append], fun j hj => ?_, nofun⟩
    -- the change is done now, and puts nothing under any path
    have hsame := Tree.file?_makeDirectory u path j
    rw [hmade] at hsame
    rw [Tree.contents_append, Action.put?, Option.none_or, ← hheld j hj]
    exact hsame
  | @create u made left path name bytes l hl hdir hfree =>
    -- the temporary file is the only place at which more is held than the changes have put
    have hne : l ++ [name] ≠ [] := List.append_ne_nil_of_right_ne_nil l (List.cons_ne_nil name [])
    refine ⟨hsplit, fun j hj => ?_, fun j hj => ?_⟩
    · rw [← hheld j nofun, Tree.file?_put hne, if_neg fun hsame => hj (by rw [hsame])]
    · obtain rfl : l ++ [name] = j := Option.some.inj hj
      refine ⟨hne, ?_⟩
      rw [← hheld _ nofun, Tree.file?, hfree]
  | @fill u made left path bytes k n =>
    -- only the temporary file is written to
    obtain ⟨hne, -⟩ := hfresh k rfl
    refine ⟨hsplit, fun j hj => ?_, hfresh⟩
    rw [← hheld j hj, Tree.file?_put hne, if_neg fun hsame => hj (by rw [hsame])]
  | @rename u v made left path bytes k hfull hput =>
    -- the temporary file is taken away, and its bytes are now at the place of the change
    obtain ⟨hne, hnone⟩ := hfresh k rfl
    refine ⟨by rw [← hsplit, List.append_assoc, List.singleton_append], fun j hj => ?_, nofun⟩
    rw [Tree.file?_write hput, Tree.contents_append, Tree.file?_remove hne]
    by_cases hj : j = k
    · rw [if_pos hj, hj, hnone]
    · rw [if_neg hj, hheld j fun hsame => hj (Option.some.inj hsame).symm]

/-- At every moment of a run, files hold what the changes have put there so far. -/
theorem Reaches.sound (h : Reaches t actions m) : m.Sound t actions := by
  induction h with
  | refl => exact ⟨rfl, fun k _ => rfl, nofun⟩
  | tail _ hnext ih => exact ih.next hnext

/-- **A change shows as a whole or not at all.** Given up at any moment, the work leaves in each
file what the changes made so far have put there last. -/
theorem Reaches.file?_stop (h : Reaches t actions m) (k : Location) :
    m.stop.file? k = t.contents m.made k := by
  obtain ⟨-, hheld, hfresh⟩ := h.sound
  rw [stop]
  split
  · next hnone => exact hheld k (by simp [hnone])
  · next j hj =>
    obtain ⟨hne, hnone⟩ := hfresh j hj
    rw [Tree.file?_remove hne]
    by_cases hk : k = j
    · rw [if_pos hk, hk, hnone]
    · rw [if_neg hk, hheld k fun hsame => hk (Option.some.inj (hj ▸ hsame)).symm]

/-- What there is in files then: what has been put there last, or what was there before. -/
theorem Reaches.node?_stop_iff (h : Reaches t actions m) {k : Location} :
    m.stop.node? k = some (.file bytes) ↔
      (∃ front path back, m.writes = front ++ .write path bytes :: back ∧
        (Action.write path bytes).place? = some k ∧ ∀ action ∈ back, action.place? ≠ some k) ∨
      t.node? k = some (.file bytes) ∧ ∀ action ∈ m.writes, action.place? ≠ some k := by
  rw [← Tree.file?_eq_some_iff, h.file?_stop, ← Tree.contents_filter]
  exact Tree.contents_eq_some_iff

/-! ## Changes performed one after the other -/

/-- Making a directory is making those on the way, all or some of them. -/
theorem exists_prefix_makeDirectory (t : Tree) (path : String) :
    ∃ parts, parts <+: Path.parts path ∧
      (t.makeDirectories [] parts).1 = (t.makeDirectory path).1 := by
  rw [Tree.makeDirectory]
  split
  · exact ⟨[], List.nil_prefix, rfl⟩
  · split
    · exact ⟨_, List.dropLast_prefix _, rfl⟩
    · exact ⟨_, List.prefix_rfl, rfl⟩

/-- A file is put in its place by making it under another name, writing it and moving it. -/
theorem reflTransGen_write (h : t.write path bytes = .ok u) :
    Relation.ReflTransGen Next ⟨t, none, made, .write path bytes :: left⟩
      ⟨u, none, made ++ [.write path bytes], left⟩ := by
  obtain ⟨l, -, hl, -, hdir, -⟩ := Tree.exists_of_write h
  -- some name is free in the directory, and all bytes may be written at once
  obtain ⟨name, hname⟩ := t.exists_notMem_keys l
  have hne : l ++ [name] ≠ [] := List.append_ne_nil_of_right_ne_nil l (List.cons_ne_nil name [])
  have hfree : t.node? (l ++ [name]) = none := by
    by_contra hnode
    obtain ⟨node, hnode⟩ := Option.ne_none_iff_exists'.mp hnode
    exact hname (Tree.mem_keys_of_node? hne hnode)
  have hcreate : Next ⟨t, none, made, .write path bytes :: left⟩ _ := .create hl hdir hfree
  have hfill : Next ⟨t.put (l ++ [name]) (.file []), some (l ++ [name]), made,
      .write path bytes :: left⟩ _ := .fill bytes.length
  rw [List.take_length, Tree.put_put] at hfill
  refine .tail (.tail (.single hcreate) hfill) (.rename ?_ ?_)
  · rw [Tree.node?_put hne, if_pos rfl]
  · rw [Tree.remove_put hname]
    exact h

/-- Performing changes one after the other is work on them. It is given up at the first that is
refused. -/
theorem exists_reaches (t : Tree) (actions : List Action) :
    ∃ m, Reaches t actions m ∧ m.stop = (t.performAll actions).1 ∧
      (m.left = [] ↔ (t.performAll actions).2 = none) := by
  -- what has been made plays no part in how the rest goes, so any list of it does
  suffices h : ∀ made, ∃ m, Relation.ReflTransGen Next ⟨t, none, made, actions⟩ m ∧
      m.stop = (t.performAll actions).1 ∧ (m.left = [] ↔ (t.performAll actions).2 = none) from h []
  induction actions generalizing t with
  | nil => exact fun made => ⟨_, .refl, rfl, by simp [Tree.performAll]⟩
  | cons action rest ih =>
    intro made
    cases action with
    | makeDirectory path =>
      rcases hmade : t.makeDirectory path with ⟨u, _ | _⟩
      -- given up on the way, with the directories that could be made
      · obtain ⟨parts, hparts, hsame⟩ := exists_prefix_makeDirectory t path
        refine ⟨_, .single (.enter hparts), ?_, ?_⟩
        · simp [stop, Tree.performAll, Tree.perform, hmade, hsame]
        · simp [Tree.performAll, Tree.perform, hmade]
      · obtain ⟨m, hm, hstop, hleft⟩ := ih u (made ++ [.makeDirectory path])
        refine ⟨m, .head (.directory hmade) hm, ?_, ?_⟩
        · simpa [Tree.performAll, Tree.perform, hmade] using hstop
        · simpa [Tree.performAll, Tree.perform, hmade] using hleft
    | write path bytes =>
      rcases hwrite : t.write path bytes with refusal | u
      -- a write that is refused changes nothing
      · refine ⟨_, .refl, ?_, ?_⟩
        · simp [stop, Tree.performAll, Tree.perform, hwrite]
        · simp [Tree.performAll, Tree.perform, hwrite]
      · obtain ⟨m, hm, hstop, hleft⟩ := ih u (made ++ [.write path bytes])
        refine ⟨m, (reflTransGen_write hwrite).trans hm, ?_, ?_⟩
        · simpa [Tree.performAll, Tree.perform, hwrite] using hstop
        · simpa [Tree.performAll, Tree.perform, hwrite] using hleft

end Moment

end Dialect.Files

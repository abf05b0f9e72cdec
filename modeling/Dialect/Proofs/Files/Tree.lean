import Dialect.Files.Tree
import Dialect.Proofs.Files.Path

/-!
# What changes do to a file tree

A change puts a file at one place (`Action.place?`) and otherwise only makes directories where there
was nothing. So directories stay, a file stays until a change puts another in its place, and when
all changes have been performed the last one at each place can be read back (`read?_performAll`).
-/

namespace Dialect.Files

/-- Where the parts of a path lead from `l`, whatever there is on the way. -/
def resolve (l : Location) : List String → Location
  | [] => l
  | part :: rest => if part = ".." then resolve l.dropLast rest else resolve (l ++ [part]) rest

/-- A directory to be made, and the files to be put in it. -/
structure Folder where
  name : String
  files : List (String × List UInt8)

/-- The changes that put the files in their directory, which is in the one at a path. -/
def Folder.writes (path : String) (f : Folder) : List Action :=
  f.files.map fun e => .write (Path.join (Path.join path f.name) e.1) e.2

/-- The changes that make the directory and put the files in it. -/
def Folder.actions (path : String) (f : Folder) : List Action :=
  .makeDirectory (Path.join path f.name) :: f.writes path

/-- The place at which a change puts a file. -/
def Action.place? : Action → Option Location
  | .makeDirectory _ => none
  | .write path _ =>
    (Path.parts path).getLast?.map fun name => resolve [] (Path.parts (Path.parent path)) ++ [name]

/-- A way is resolved along its front, and from there along its back. -/
theorem resolve_append (l : Location) (front back : List String) :
    resolve l (front ++ back) = resolve (resolve l front) back := by
  induction front generalizing l with
  | nil => rfl
  | cons part rest ih =>
    rw [List.cons_append, resolve, resolve]
    split
    · exact ih _
    · exact ih _

/-- Where a text without slashes leads from a location. -/
def descend (l : Location) (name : String) : Location :=
  if name = "." then l else if name = ".." then l.dropLast else l ++ [name]

/-- A step stays where it is, goes up, or goes down by a name. -/
theorem descend_cases (l : Location) (name : String) :
    name = "." ∧ descend l name = l ∨ name = ".." ∧ descend l name = l.dropLast ∨
      descend l name = l ++ [name] := by
  rw [descend]
  split
  · next hdot => exact .inl ⟨hdot, rfl⟩
  · split
    · next hdots => exact .inr (.inl ⟨hdots, rfl⟩)
    · exact .inr (.inr rfl)

/-- Different texts lead to different locations, but that nothing leads up from the root. -/
theorem eq_of_descend_eq {l : Location} {name name' : String}
    (hup : l = [] → name ≠ ".." ∧ name' ≠ "..") (h : descend l name = descend l name') :
    name = name' := by
  have hpos : name = ".." ∨ name' = ".." → 0 < l.length := by
    intro hdots
    refine List.length_pos_iff.mpr fun hnil => ?_
    exact hdots.elim (hup hnil).1 (hup hnil).2
  have hlength := congrArg List.length h
  -- upwards, nowhere and downwards lead to locations of different lengths
  rcases descend_cases l name with ⟨hn, hd⟩ | ⟨hn, hd⟩ | hd
  · rcases descend_cases l name' with ⟨hn', hd'⟩ | ⟨hn', hd'⟩ | hd' <;> rw [hd, hd'] at hlength
    · rw [hn, hn']
    · have := hpos (.inr hn')
      rw [List.length_dropLast] at hlength
      omega
    · simp at hlength
  · have := hpos (.inl hn)
    rcases descend_cases l name' with ⟨hn', hd'⟩ | ⟨hn', hd'⟩ | hd' <;> rw [hd, hd'] at hlength
    · rw [List.length_dropLast] at hlength
      omega
    · rw [hn, hn']
    · rw [List.length_dropLast, List.length_append, List.length_singleton] at hlength
      omega
  · rcases descend_cases l name' with ⟨hn', hd'⟩ | ⟨hn', hd'⟩ | hd'
    · rw [hd, hd'] at hlength
      simp at hlength
    · rw [hd, hd', List.length_dropLast, List.length_append, List.length_singleton] at hlength
      omega
    -- both lead downwards, and then the names are the ends of the locations
    · rw [hd, hd'] at h
      simpa using h

/-- A text without slashes leads on from where the path in front of it leads. -/
theorem resolve_join_of_notMem {base name : String} (h : '/' ∉ name.toList) (hne : name ≠ "") :
    resolve [] (Path.parts (Path.join base name)) =
      descend (resolve [] (Path.parts base)) name := by
  rw [Path.parts_join h, Path.parts_of_notMem h hne, resolve_append, descend]
  split
  · rfl
  · rfl

/-- A name leads on from where the path in front of it leads. -/
theorem resolve_join {base name : String} (h : Path.IsPlain name) :
    resolve [] (Path.parts (Path.join base name)) = resolve [] (Path.parts base) ++ [name] := by
  rw [resolve_join_of_notMem h.notMem h.ne_empty, descend, if_neg h.ne_dot, if_neg h.ne_dots]

namespace Tree

variable {t u after : Tree} {k l : Location} {parts : List String}

/-! ## Places -/

/-- A location is a directory if there is a directory at it. -/
theorem isDirectory_iff : t.isDirectory l ↔ t.node? l = some .directory := by
  rw [isDirectory, beq_iff_eq]

/-- Without one location, the others are looked up as before. -/
theorem lookup_filter {nodes : List (Location × Node)} (h : k ≠ l) :
    (nodes.filter (·.1 != l)).lookup k = nodes.lookup k := by
  induction nodes with
  | nil => rfl
  | cons entry rest ih =>
    rw [List.filter_cons]
    split
    · rw [List.lookup_cons, List.lookup_cons, ih]
    · next hentry =>
      have hl : entry.1 = l := by simpa using hentry
      have hk : (k == entry.1) = false := by simp [hl, h]
      rw [List.lookup_cons, hk, ih]

/-- What is put stands at its place, and all else is as before. -/
theorem node?_put (hl : l ≠ []) (node : Node) :
    (t.put l node).node? k = if k = l then some node else t.node? k := by
  rw [node?, node?, put]
  by_cases hk : k = l
  · subst hk
    have hnone : (t.nodes.filter (·.1 != k)).lookup k = none := by
      refine List.lookup_eq_none_iff.mpr fun entry hentry => ?_
      have hne : entry.1 ≠ k := by simpa using (List.mem_filter.mp hentry).2
      simpa using hne.symm
    rw [if_neg hl, if_pos rfl, List.lookup_append, hnone]
    simp
  · rw [if_neg hk]
    split
    · rfl
    · have hnew : [(l, node)].lookup k = none :=
        List.lookup_eq_none_iff.mpr fun entry hentry => by
          rw [List.mem_singleton.mp hentry]
          simpa using hk
      rw [List.lookup_append, lookup_filter hk, hnew, Option.or_none]

/-- A path that can be followed leads where its parts say. -/
theorem eq_resolve_of_follow (h : t.follow l parts = some k) : k = resolve l parts := by
  induction parts generalizing l with
  | nil => exact (Option.some.inj h).symm
  | cons part rest ih =>
    rw [follow] at h
    rw [resolve]
    split at h
    · exact absurd h (by simp)
    · split at h
      · next hup => rw [if_pos hup, ih h]
      · next hdown =>
        split at h
        · rw [if_neg hdown, ih h]
        · exact absurd h (by simp)

/-- A path can be followed wherever the directories on the way are. -/
theorem follow_of_follow (hdirs : ∀ k, t.isDirectory k → u.isDirectory k)
    (h : t.follow l parts = some k) : u.follow l parts = some k := by
  induction parts generalizing l with
  | nil => exact h
  | cons part rest ih =>
    rw [follow] at h ⊢
    split at h
    · exact absurd h (by simp)
    · next hdir =>
      have hdir' : u.isDirectory l := hdirs l (by simpa using hdir)
      simp only [hdir', Bool.not_true, Bool.false_eq_true, if_false]
      split at h
      · next hup => rw [if_pos hup, ih h]
      · next hdown =>
        split at h
        · next hname => rw [if_neg hdown, if_pos hname, ih h]
        · exact absurd h (by simp)

/-- A way is followed along its front, and from there along its back. -/
theorem follow_append (front back : List String) :
    t.follow l (front ++ back) = (t.follow l front).bind fun k => t.follow k back := by
  induction front generalizing l with
  | nil => rfl
  | cons part rest ih =>
    rw [List.cons_append, follow, follow]
    split
    · rfl
    · split
      · exact ih
      · split
        · exact ih
        · rfl

/-- A path is located where its parts lead from the root, unless it is too long. -/
theorem locate?_eq_some_iff {path : String} :
    t.locate? path = some l ↔ isPath path ∧ t.follow [] (Path.parts path) = some l := by
  rw [locate?, Option.ite_none_right_eq_some]

/-- A path can lead to one location only. -/
theorem eq_resolve_of_locate? {path : String} (h : t.locate? path = some l) :
    l = resolve [] (Path.parts path) :=
  eq_resolve_of_follow (locate?_eq_some_iff.mp h).2

/-- What is read at a path is what the file holds to which it leads. -/
theorem read?_eq_some_iff {path : String} {bytes : List UInt8} :
    t.read? path = some bytes ↔
      ∃ l, t.locate? path = some l ∧ t.node? l = some (.file bytes) := by
  rw [read?, Option.bind_eq_bind, Option.bind_eq_some_iff]
  constructor
  · rintro ⟨l, hl, h⟩
    refine ⟨l, hl, ?_⟩
    split at h
    · next hfile => rw [hfile, Option.some.inj h]
    · exact absurd h (by simp)
  · rintro ⟨l, hl, hfile⟩
    exact ⟨l, hl, by rw [hfile]⟩

/-- The files of a directory are the entries that are not directories. -/
theorem fileNames?_eq_some_iff {path : String} {names : List String} :
    t.fileNames? path = some names ↔
      ∃ l, t.locate? path = some l ∧ t.isDirectory l ∧
        (t.names l).filter (t.listsFile path l) = names := by
  rw [fileNames?, Option.bind_eq_bind, Option.bind_eq_some_iff]
  simp only [Option.ite_none_right_eq_some, Option.some.injEq]

/-! ## One change -/

/-- Making directories changes nothing but that there may be one where there was nothing. -/
theorem node?_makeDirectories (t : Tree) (l : Location) (parts : List String) (k : Location) :
    (t.makeDirectories l parts).1.node? k = t.node? k ∨
      t.node? k = none ∧ (t.makeDirectories l parts).1.node? k = some .directory := by
  fun_induction makeDirectories t l parts with
  | case1 => exact .inl rfl
  | case2 t l rest ih => exact ih
  | case3 t l part rest hdown hdirectory ih => exact ih
  | case4 => exact .inl rfl
  | case5 t l part rest hdown hnone hname ih =>
    have hput := node?_put (t := t) (k := k) (List.append_ne_nil_of_right_ne_nil l
      (List.cons_ne_nil part [])) .directory
    -- the directory that is put is new, and the ones made behind it do not take it away
    by_cases hk : k = l ++ [part]
    · subst hk
      rw [if_pos rfl] at hput
      rcases ih with ih | ⟨ih, -⟩
      · exact .inr ⟨hnone, ih.trans hput⟩
      · rw [hput] at ih
        exact absurd ih (by simp)
    · rwa [hput, if_neg hk] at ih
  | case6 => exact .inl rfl

/-- Making a directory changes nothing but what was not there, and puts only directories there. -/
theorem node?_makeDirectory (t : Tree) (path : String) (k : Location) :
    (t.makeDirectory path).1.node? k = t.node? k ∨
      t.node? k = none ∧ (t.makeDirectory path).1.node? k = some .directory := by
  rw [makeDirectory]
  split
  · exact .inl rfl
  · split
    · exact node?_makeDirectories t [] _ k
    · exact node?_makeDirectories t [] _ k

/-- A file that has been put is in a directory that was there, and not in the place of another. -/
theorem exists_of_write {path : String} {bytes : List UInt8} (h : t.write path bytes = .ok u) :
    ∃ l name, t.locate? (Path.parent path) = some l ∧ (Path.parts path).getLast? = some name ∧
      t.isDirectory l ∧ isPath path ∧ isName name ∧ ¬ t.isDirectory (l ++ [name]) ∧
      u = t.put (l ++ [name]) (.file bytes) := by
  rw [write] at h
  split at h
  · next l name hl hname =>
    split at h
    · exact absurd h (by simp)
    · next hdir =>
      split at h
      · exact absurd h (by simp)
      · next hgood =>
        simp only [Bool.or_eq_true, Bool.not_eq_true', not_or, Bool.not_eq_false] at hdir hgood
        exact ⟨l, name, hl, hname, hdir, hgood.1.1, hgood.1.2, hgood.2, (Except.ok.inj h).symm⟩
  · exact absurd h (by simp)

/-- The place of a file is where its path leads, if the path leads on from where its directory is to
a name. -/
theorem place?_write {path name : String} {bytes : List UInt8}
    (hparts : Path.parts path = Path.parts (Path.parent path) ++ [name]) (hname : name ≠ "..") :
    (Action.write path bytes).place? = some (resolve [] (Path.parts path)) := by
  rw [Action.place?, hparts, List.getLast?_concat, resolve_append, resolve, if_neg hname]
  rfl

/-- A file that has been put is at its place. -/
theorem place?_of_locate? {path name : String} {bytes : List UInt8}
    (hl : t.locate? (Path.parent path) = some l) (hname : (Path.parts path).getLast? = some name) :
    (Action.write path bytes).place? = some (l ++ [name]) := by
  rw [Action.place?, hname, eq_resolve_of_locate? hl]
  rfl

/-- A file that has been put under a name of a directory is where its path leads. -/
theorem eq_put_of_write {base name : String} {bytes : List UInt8} (hname : Path.IsPlain name)
    (h : t.write (Path.join base name) bytes = .ok u) :
    u = t.put (resolve [] (Path.parts (Path.join base name))) (.file bytes) := by
  obtain ⟨l, last, hl, hlast, -, -, -, -, rfl⟩ := exists_of_write h
  rw [Path.parts_join hname.notMem, hname.parts_eq, List.getLast?_concat] at hlast
  rw [eq_resolve_of_locate? hl, Path.parts_parent_join hname.notMem, resolve_join hname,
    Option.some.inj hlast]

/-- A change leaves alone what is not at its place, but that it makes directories. -/
theorem node?_perform {action : Action} (h : action.place? ≠ some k) :
    (t.perform action).1.node? k = t.node? k ∨
      t.node? k = none ∧ (t.perform action).1.node? k = some .directory := by
  cases action with
  | makeDirectory path => exact node?_makeDirectory t path k
  | write path bytes =>
    rw [perform]
    split
    · next u hu =>
      obtain ⟨l, name, hl, hname, -, -, -, -, rfl⟩ := exists_of_write hu
      rw [place?_of_locate? hl hname] at h
      have hk : k ≠ l ++ [name] := fun hk => h (by rw [hk])
      left
      rw [node?_put (List.append_ne_nil_of_right_ne_nil l (List.cons_ne_nil name [])), if_neg hk]
    · exact .inl rfl

/-- No change removes a directory. -/
theorem isDirectory_perform (action : Action) (h : t.isDirectory k) :
    (t.perform action).1.isDirectory k := by
  rw [isDirectory_iff] at h ⊢
  -- only a file could be put at this place, and never where there is a directory
  by_cases hplace : action.place? = some k
  · cases action with
    | makeDirectory path => exact absurd hplace (by simp [Action.place?])
    | write path bytes =>
      rw [perform]
      split
      · next u hu =>
        obtain ⟨l, name, hl, hname, -, -, -, hfree, -⟩ := exists_of_write hu
        rw [place?_of_locate? hl hname] at hplace
        rw [Option.some.inj hplace, isDirectory_iff] at hfree
        exact absurd h hfree
      · exact h
  · rcases node?_perform hplace with hsame | ⟨hnone, -⟩
    · rw [hsame, h]
    · rw [h] at hnone
      exact absurd hnone (by simp)

/-- A file that is written without refusal is written. -/
theorem perform_write_eq_none_iff {path : String} {bytes : List UInt8} :
    t.perform (.write path bytes) = (u, none) ↔ t.write path bytes = .ok u := by
  rw [perform]
  cases t.write path bytes with
  | error refusal => simp
  | ok v => simp

/-! ## Many changes -/

/-- Changes are all made if the first is made, and the others behind it. -/
theorem performAll_cons_eq_none_iff {action : Action} {actions : List Action} :
    t.performAll (action :: actions) = (after, none) ↔
      ∃ u, t.perform action = (u, none) ∧ u.performAll actions = (after, none) := by
  rw [performAll]
  rcases t.perform action with ⟨u, _ | refusal⟩
  · simp
  · simp

/-- Changes are all made if the front ones are, and then those behind them. -/
theorem performAll_append_eq_none_iff {front back : List Action} :
    t.performAll (front ++ back) = (after, none) ↔
      ∃ u, t.performAll front = (u, none) ∧ u.performAll back = (after, none) := by
  induction front generalizing t with
  | nil => simp [performAll]
  | cons action rest ih =>
    rw [List.cons_append, performAll_cons_eq_none_iff]
    simp only [ih, performAll_cons_eq_none_iff]
    constructor
    · rintro ⟨v, hv, u, hu, hback⟩
      exact ⟨u, ⟨v, hv, hu⟩, hback⟩
    · rintro ⟨u, ⟨v, hv, hu⟩, hback⟩
      exact ⟨v, hv, u, hu, hback⟩

/-- No change takes a directory away. -/
theorem isDirectory_performAll {actions : List Action} (h : t.performAll actions = (after, none))
    (hk : t.isDirectory k) : after.isDirectory k := by
  induction actions generalizing t with
  | nil =>
    obtain rfl : t = after := congrArg Prod.fst h
    exact hk
  | cons action rest ih =>
    obtain ⟨u, hu, hrest⟩ := performAll_cons_eq_none_iff.mp h
    refine ih hrest ?_
    have hdir := isDirectory_perform action hk
    rwa [hu] at hdir

/-- A file stays as it is until a change puts another in its place. -/
theorem node?_performAll {actions : List Action} {bytes : List UInt8}
    (h : t.performAll actions = (after, none)) (hk : t.node? k = some (.file bytes))
    (hplaces : ∀ action ∈ actions, action.place? ≠ some k) :
    after.node? k = some (.file bytes) := by
  induction actions generalizing t with
  | nil =>
    obtain rfl : t = after := congrArg Prod.fst h
    exact hk
  | cons action rest ih =>
    obtain ⟨u, hu, hrest⟩ := performAll_cons_eq_none_iff.mp h
    refine ih hrest ?_ fun a ha => hplaces a (List.mem_cons_of_mem action ha)
    have hstep := node?_perform (t := t) (hplaces action List.mem_cons_self)
    rw [hu] at hstep
    rcases hstep with hsame | ⟨hnone, -⟩
    · rw [hsame, hk]
    · rw [hk] at hnone
      exact absurd hnone (by simp)

/-- The last file put at a place can be read under its path, if the path leads on from where its
directory is to a name. -/
theorem read?_performAll {front back : List Action} {path name : String} {bytes : List UInt8}
    (h : t.performAll (front ++ .write path bytes :: back) = (after, none))
    (hparts : Path.parts path = Path.parts (Path.parent path) ++ [name]) (hname : name ≠ "..")
    (hlast : ∀ action ∈ back, action.place? ≠ (Action.write path bytes).place?) :
    after.read? path = some bytes := by
  obtain ⟨u, -, hwrite⟩ := performAll_append_eq_none_iff.mp h
  obtain ⟨v, hv, hback⟩ := performAll_cons_eq_none_iff.mp hwrite
  obtain ⟨l, last, hl, hlastName, hdir, hpath, hgood, -, rfl⟩ :=
    exists_of_write (perform_write_eq_none_iff.mp hv)
  obtain rfl : name = last := by
    rw [hparts, List.getLast?_concat] at hlastName
    exact Option.some.inj hlastName
  have hne : l ++ [name] ≠ [] := List.append_ne_nil_of_right_ne_nil l (List.cons_ne_nil name [])
  -- no later change takes away the directories of the way, nor the file itself
  have hdirs : ∀ k, u.isDirectory k → after.isDirectory k :=
    fun k hk => isDirectory_performAll hwrite hk
  have hfollow : after.follow [] (Path.parts path) = some (l ++ [name]) := by
    rw [hparts, follow_append, follow_of_follow hdirs (locate?_eq_some_iff.mp hl).2]
    simp [follow, hdirs l hdir, hname, hgood]
  have hfile : after.node? (l ++ [name]) = some (.file bytes) := by
    refine node?_performAll hback (by rw [node?_put hne, if_pos rfl]) fun action haction => ?_
    rw [← place?_of_locate? hl hlastName]
    exact hlast action haction
  exact read?_eq_some_iff.mpr ⟨_, locate?_eq_some_iff.mpr ⟨hpath, hfollow⟩, hfile⟩

/-- A file whose place has not been taken twice can be read under its path. -/
theorem read?_of_count {actions : List Action} {path name : String} {bytes : List UInt8}
    (h : t.performAll actions = (after, none))
    (hcount : (actions.filterMap Action.place?).count (resolve [] (Path.parts path)) ≤ 1)
    (hmem : .write path bytes ∈ actions)
    (hparts : Path.parts path = Path.parts (Path.parent path) ++ [name]) (hname : name ≠ "..") :
    after.read? path = some bytes := by
  have hplace : (Action.write path bytes).place? = some (resolve [] (Path.parts path)) :=
    place?_write hparts hname
  obtain ⟨front, back, rfl⟩ := List.append_of_mem hmem
  refine read?_performAll h hparts hname fun action haction hsame => ?_
  rw [List.filterMap_append, List.filterMap_cons_some hplace, List.count_append,
    List.count_cons_self] at hcount
  have hback : 0 < (back.filterMap Action.place?).count (resolve [] (Path.parts path)) :=
    List.count_pos_iff.mpr (List.mem_filterMap.mpr ⟨action, haction, hsame.trans hplace⟩)
  omega

end Tree

end Dialect.Files

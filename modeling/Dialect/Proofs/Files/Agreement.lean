import Dialect.Proofs.Files.Tree
import Mathlib.Data.List.Nodup

/-!
# Trees that differ in files only

Two trees that have the same files and directories, and differ in what some of the files hold, are
not told apart by changes: the same changes are refused in both, and they differ in those files
again at the most (`AgreeBut.performAll`). Putting a file in the place of another makes such a tree
(`agreeBut_put`), and so does listing all that there is in another order (`agreeBut_of_perm`). The
names in the directories of the two are the same in some order.
-/

namespace Dialect.Files.Tree

/-- The trees have the same files and directories, and the same is in all files but those at which
`off` holds. -/
structure AgreeBut (off : Location → Prop) (t t' : Tree) : Prop where
  elsewhere : ∀ k, ¬ off k → t.node? k = t'.node? k
  here : ∀ k, off k →
    ∃ bytes bytes', t.node? k = some (.file bytes) ∧ t'.node? k = some (.file bytes')

variable {t t' : Tree} {k l : Location} {off : Location → Prop}

namespace AgreeBut

/-- Neither of the two trees is the one that the other differs from. -/
theorem symm (h : AgreeBut off t t') : AgreeBut off t' t := by
  refine ⟨fun k hk => (h.elsewhere k hk).symm, fun k hk => ?_⟩
  obtain ⟨bytes, bytes', hfile, hfile'⟩ := h.here k hk
  exact ⟨bytes', bytes, hfile', hfile⟩

/-- The same locations are directories, as trees differ only where both have a file. -/
theorem isDirectory_eq (h : AgreeBut off t t') (k : Location) :
    t.isDirectory k = t'.isDirectory k := by
  by_cases hk : off k
  · obtain ⟨bytes, bytes', hfile, hfile'⟩ := h.here k hk
    rw [isDirectory, isDirectory, hfile, hfile']
    rfl
  · rw [isDirectory, isDirectory, h.elsewhere k hk]

/-- Paths lead to the same locations. -/
theorem follow_eq (h : AgreeBut off t t') (k : Location) (parts : List String) :
    t.follow k parts = t'.follow k parts := by
  induction parts generalizing k with
  | nil => rfl
  | cons part rest ih => rw [follow, follow, h.isDirectory_eq, ih, ih]

/-- Paths are located alike, or both not at all. -/
theorem locate?_eq (h : AgreeBut off t t') (path : String) : t.locate? path = t'.locate? path := by
  rw [locate?, locate?, h.follow_eq]

/-- The same is read at a path that does not lead to one of the files that differ. -/
theorem read?_eq (h : AgreeBut off t t') {path : String}
    (hpath : ∀ k, t.locate? path = some k → ¬ off k) : t.read? path = t'.read? path := by
  rw [read?, read?, ← h.locate?_eq]
  cases hk : t.locate? path with
  | none => rfl
  | some k => simp only [Option.bind_eq_bind, Option.bind_some, h.elsewhere k (hpath k hk)]

/-- The same node put at the same place. -/
theorem put (h : AgreeBut off t t') (hk : k ≠ []) {node : Node}
    (hnode : off k → ∃ bytes, node = .file bytes) :
    AgreeBut off (t.put k node) (t'.put k node) := by
  constructor
  · intro other hother
    rw [node?_put hk, node?_put hk, h.elsewhere other hother]
  · intro other hother
    rw [node?_put hk, node?_put hk]
    by_cases heq : other = k
    · obtain ⟨bytes, rfl⟩ := hnode (heq ▸ hother)
      exact ⟨bytes, bytes, by rw [if_pos heq], by rw [if_pos heq]⟩
    · rw [if_neg heq, if_neg heq]
      exact h.here other hother

/-- The same directories are made, or refused, one inside the other. -/
theorem makeDirectories (h : AgreeBut off t t') (k : Location) (parts : List String) :
    (t.makeDirectories k parts).2 = (t'.makeDirectories k parts).2 ∧
      AgreeBut off (t.makeDirectories k parts).1 (t'.makeDirectories k parts).1 := by
  induction parts generalizing t t' k with
  | nil => exact ⟨rfl, h⟩
  | cons part rest ih =>
    rw [Tree.makeDirectories, Tree.makeDirectories]
    split
    · exact ih h _
    -- a file is in the way in both trees, whatever bytes it has
    · by_cases hk : off (k ++ [part])
      · obtain ⟨bytes, bytes', hfile, hfile'⟩ := h.here _ hk
        simp only [hfile, hfile']
        exact ⟨trivial, h⟩
      · rw [← h.elsewhere _ hk]
        rcases t.node? (k ++ [part]) with _ | _ | bytes
        · simp only
          split
          · exact ih (h.put (by simp) fun hl => absurd hl hk) _
          · exact ⟨rfl, h⟩
        · exact ih h _
        · exact ⟨rfl, h⟩

/-- The same directory is made, or refused, in both trees. -/
theorem makeDirectory (h : AgreeBut off t t') (path : String) :
    (t.makeDirectory path).2 = (t'.makeDirectory path).2 ∧
      AgreeBut off (t.makeDirectory path).1 (t'.makeDirectory path).1 := by
  rw [Tree.makeDirectory, Tree.makeDirectory]
  split
  · exact ⟨rfl, h⟩
  · split
    · obtain ⟨hmade, hagree⟩ := h.makeDirectories [] (Path.parts path).dropLast
      have hdirs := hagree.isDirectory_eq
      simp only [hmade, hagree.follow_eq, funext hdirs]
      exact ⟨trivial, hagree⟩
    · exact h.makeDirectories [] _

/-- The same file is put, or refused, in both trees. -/
theorem write (h : AgreeBut off t t') (path : String) (bytes : List UInt8) :
    (∃ u u', t.write path bytes = .ok u ∧ t'.write path bytes = .ok u' ∧ AgreeBut off u u') ∨
      ∃ refusal, t.write path bytes = .error refusal ∧ t'.write path bytes = .error refusal := by
  rw [Tree.write, Tree.write, ← h.locate?_eq]
  split
  · next k name _ _ =>
    rw [← h.isDirectory_eq, ← h.isDirectory_eq]
    split
    · exact .inr ⟨_, rfl, rfl⟩
    · split
      · exact .inr ⟨_, rfl, rfl⟩
      · exact .inl ⟨_, _, rfl, rfl, h.put (by simp) fun _ => ⟨bytes, rfl⟩⟩
  · exact .inr ⟨_, rfl, rfl⟩

/-- The same change is made, or refused, in both trees. -/
theorem perform (h : AgreeBut off t t') (action : Action) :
    (t.perform action).2 = (t'.perform action).2 ∧
      AgreeBut off (t.perform action).1 (t'.perform action).1 := by
  cases action with
  | makeDirectory path =>
    obtain ⟨hmade, hagree⟩ := h.makeDirectory path
    simp only [Tree.perform, hmade]
    exact ⟨trivial, hagree⟩
  | write path bytes =>
    rcases h.write path bytes with ⟨u, u', hu, hu', hagree⟩ | ⟨refusal, hr, hr'⟩
    · simp only [Tree.perform, hu, hu']
      exact ⟨trivial, hagree⟩
    · simp only [Tree.perform, hr, hr']
      exact ⟨trivial, h⟩

/-- The same changes are refused, if any, and the trees differ in no other file than before. -/
theorem performAll (h : AgreeBut off t t') (actions : List Action) :
    (t.performAll actions).2 = (t'.performAll actions).2 ∧
      AgreeBut off (t.performAll actions).1 (t'.performAll actions).1 := by
  induction actions generalizing t t' with
  | nil => exact ⟨rfl, h⟩
  | cons action rest ih =>
    obtain ⟨hrefusal, hagree⟩ := h.perform action
    rw [Tree.performAll, Tree.performAll]
    rcases ht : t.perform action with ⟨u, refusal⟩
    rcases ht' : t'.perform action with ⟨u', refusal'⟩
    rw [ht, ht'] at hrefusal hagree
    obtain rfl : refusal = refusal' := hrefusal
    cases refusal with
    | none => exact ih hagree
    | some refusal => exact ⟨rfl, hagree⟩

end AgreeBut

/-! ## Putting a file in the place of another -/

/-- The locations that a tree lists, in order. -/
def keys (t : Tree) : List Location := t.nodes.map (·.1)

/-- No location is listed twice, and each is a way made of names. -/
structure WellFormed (t : Tree) : Prop where
  nodup : t.keys.Nodup
  ne_nil : ∀ k ∈ t.keys, k ≠ []
  isPlain : ∀ k ∈ t.keys, ∀ name ∈ k, Path.IsPlain name

/-- Where there is something, below the root, the tree lists it. -/
theorem mem_keys_of_node? {node : Node} (hl : l ≠ []) (h : t.node? l = some node) : l ∈ t.keys := by
  rw [node?, if_neg hl, List.lookup_eq_some_iff] at h
  obtain ⟨front, back, hnodes, -⟩ := h
  rw [keys, hnodes]
  simp

/-- What is put into a tree is listed last. -/
theorem keys_put (t : Tree) (l : Location) (node : Node) :
    (t.put l node).keys = t.keys.filter (· != l) ++ [l] := by
  rw [keys, put, List.map_append, keys, List.filter_map]
  rfl

/-- Putting a file in the place of another lists the same locations in another order. -/
theorem keys_put_perm (h : t.keys.Nodup) (hl : l ∈ t.keys) (node : Node) :
    (t.put l node).keys.Perm t.keys := by
  rw [keys_put, ← h.erase_eq_filter]
  exact (List.perm_append_singleton ..).trans (List.perm_cons_erase hl).symm

/-- The name of what is at a location, if that is in the directory at `l`. -/
def nameIn? (l k : Location) : Option String :=
  k.getLast?.bind fun name => if k.dropLast = l then some name else none

/-- The names in a directory are those that the listed locations have there, in order. -/
theorem names_eq_filterMap (t : Tree) (l : Location) :
    t.names l = t.keys.filterMap (nameIn? l) := by
  rw [names, keys, List.filterMap_map]
  congr 1
  funext ⟨k, node⟩
  simp only [Function.comp_apply, nameIn?]
  cases k.getLast? with
  | none => rfl
  | some name => rfl

/-- A location is in a directory by its last name. -/
theorem nameIn?_eq_some_iff {name : String} : nameIn? l k = some name ↔ k = l ++ [name] := by
  rw [nameIn?]
  constructor
  · intro h
    obtain ⟨last, hlast, h⟩ := Option.bind_eq_some_iff.mp h
    obtain ⟨hfront, hname⟩ := Option.ite_none_right_eq_some.mp h
    obtain ⟨front, rfl⟩ := List.getLast?_eq_some_iff.mp hlast
    rw [← hfront, List.dropLast_concat, Option.some.inj hname]
  · rintro rfl
    simp

/-- A name is in a directory if its location is listed. -/
theorem mem_names_iff {name : String} : name ∈ t.names l ↔ l ++ [name] ∈ t.keys := by
  rw [names_eq_filterMap, List.mem_filterMap]
  simp [nameIn?_eq_some_iff]

/-- No two entries of a directory have the same name. -/
theorem WellFormed.nodup_names (h : t.WellFormed) (l : Location) : (t.names l).Nodup := by
  rw [names_eq_filterMap]
  refine List.Nodup.filterMap (fun k k' name hk hk' => ?_) h.nodup
  exact (nameIn?_eq_some_iff.mp hk).trans (nameIn?_eq_some_iff.mp hk').symm

/-- The names of a directory can be parts of a path. -/
theorem WellFormed.isPlain_of_mem_names (h : t.WellFormed) {name : String}
    (hname : name ∈ t.names l) : Path.IsPlain name :=
  h.isPlain _ (mem_names_iff.mp hname) name (by simp)

/-- A tree in which a file has been put in the place of another differs from it in that file. -/
theorem agreeBut_put {bytes : List UInt8} (bytes' : List UInt8) (hl : l ≠ [])
    (h : t.node? l = some (.file bytes)) :
    AgreeBut (· = l) t (t.put l (.file bytes')) := by
  constructor
  · intro k hk
    rw [node?_put hl, if_neg hk]
  · rintro k rfl
    exact ⟨bytes, bytes', h, by rw [node?_put hl, if_pos rfl]⟩

/-- Trees that have the same files and directories list the same files in a directory, if they list
the same locations. -/
theorem AgreeBut.perm_fileNames? (h : AgreeBut off t t') (hkeys : t'.keys.Perm t.keys)
    {path : String} {names : List String} (hnames : t.fileNames? path = some names) :
    ∃ names', t'.fileNames? path = some names' ∧ names'.Perm names := by
  obtain ⟨k, hk, hdir, rfl⟩ := fileNames?_eq_some_iff.mp hnames
  have hfiles : t'.listsFile path k = t.listsFile path k := by
    funext name
    rw [listsFile, listsFile, h.isDirectory_eq]
  refine ⟨_, fileNames?_eq_some_iff.mpr ⟨k, ?_, ?_, rfl⟩, ?_⟩
  · rw [← h.locate?_eq, hk]
  · rw [← h.isDirectory_eq, hdir]
  · rw [hfiles, names_eq_filterMap, names_eq_filterMap]
    exact (hkeys.filterMap _).filter _

/-- Putting a file in the place of another does not change which files are in a directory. -/
theorem perm_fileNames?_put {bytes : List UInt8} (bytes' : List UInt8) {path : String}
    {names : List String} (hwell : t.WellFormed) (hl : l ≠ []) (h : t.node? l = some (.file bytes))
    (hnames : t.fileNames? path = some names) :
    ∃ names', (t.put l (.file bytes')).fileNames? path = some names' ∧ names'.Perm names :=
  (agreeBut_put bytes' hl h).perm_fileNames?
    (keys_put_perm hwell.nodup (mem_keys_of_node? hl h) _) hnames

/-! ## Listing in another order -/

/-- What there is at a location does not depend on the order in which locations are listed. -/
theorem lookup_eq_of_perm {nodes nodes' : List (Location × Node)} (h : nodes.Perm nodes')
    (hnodup : (nodes.map (·.1)).Nodup) (k : Location) : nodes.lookup k = nodes'.lookup k := by
  induction h with
  | nil => rfl
  | cons entry _ ih =>
    rw [List.map_cons, List.nodup_cons] at hnodup
    rw [List.lookup_cons, List.lookup_cons, ih hnodup.2]
  | swap entry other rest =>
    have hne : other.1 ≠ entry.1 := by
      rw [List.map_cons, List.map_cons, List.nodup_cons, List.mem_cons, not_or] at hnodup
      exact hnodup.1.1
    rw [List.lookup_cons, List.lookup_cons, List.lookup_cons, List.lookup_cons]
    rcases hother : k == other.1 with _ | _
    · rfl
    · rw [beq_iff_eq] at hother
      rw [hother, beq_false_of_ne hne]
  | trans h _ ih ih' => exact (ih hnodup).trans (ih' ((h.map _).nodup hnodup))

/-- A tree that lists the same in another order is the same tree. -/
theorem agreeBut_of_perm (hwell : t.WellFormed) (h : t.nodes.Perm t'.nodes) :
    AgreeBut (fun _ => False) t t' := by
  refine ⟨fun k _ => ?_, nofun⟩
  rw [node?, node?, lookup_eq_of_perm h hwell.nodup]

end Dialect.Files.Tree

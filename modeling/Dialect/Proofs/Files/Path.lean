import Dialect.Files.Path
import Mathlib.Data.List.Induction
import Mathlib.Data.List.TakeDrop

/-!
# Paths cut and put together

A path that leads from a directory to a name has the parts of the directory and then the name
(`parts_join`), and what lies around it is the directory again (`parts_parent_join`). Both hold of a
name without slashes; slashes and single dots at the end of a path do not count (`partsOf_trimEnd`).
With slashes in the name something else lies around the path (`IsEntry.exists_parts_parent_join`).
-/

namespace Dialect.Files.Path

/-! ## Parts -/

/-- A path has at least one part, which may be empty. -/
theorem split_ne_nil (path : List Char) : split path ≠ [] := by
  fun_induction split path with
  | case1 => exact List.cons_ne_nil _ _
  | case2 => exact List.cons_ne_nil _ _
  | case3 => exact List.cons_ne_nil _ _
  | case4 => exact List.cons_ne_nil _ _

/-- A slash in front makes an empty first part. -/
theorem split_cons_slash (path : List Char) : split ('/' :: path) = [] :: split path := by
  obtain ⟨part, more, hsplit⟩ := List.exists_cons_of_ne_nil (split_ne_nil path)
  rw [split, hsplit]
  rfl

/-- A slash separates the parts in front of it from those behind it. -/
theorem split_append_slash (front back : List Char) :
    split (front ++ '/' :: back) = split front ++ split back := by
  induction front with
  | nil => exact split_cons_slash back
  | cons c rest ih =>
    obtain ⟨part, more, hsplit⟩ := List.exists_cons_of_ne_nil (split_ne_nil rest)
    rw [hsplit] at ih
    simp only [List.cons_append, split, ih, hsplit]
    split
    · rfl
    · rfl

/-- A name without slashes is a single part. -/
theorem split_of_notMem {name : List Char} (h : '/' ∉ name) : split name = [name] := by
  induction name with
  | nil => rfl
  | cons c rest ih =>
    rw [List.mem_cons, not_or] at h
    rw [split, ih h.2]
    exact if_neg (Ne.symm h.1)

/-- The parts of a path that is given by its characters. -/
def partsOf (path : List Char) : List String :=
  ((split path).filter fun p => p ≠ [] ∧ p ≠ ['.']).map String.ofList

/-- The parts of a path are those of its characters that name something. -/
theorem parts_eq_partsOf (path : String) : parts path = partsOf path.toList := rfl

/-- What stands on the two sides of a slash gives parts on its own. -/
theorem partsOf_append_slash (front back : List Char) :
    partsOf (front ++ '/' :: back) = partsOf front ++ partsOf back := by
  rw [partsOf, split_append_slash, List.filter_append, List.map_append]
  rfl

/-- A text without slashes is one part, or none if it is a single dot. -/
theorem parts_of_notMem {name : String} (h : '/' ∉ name.toList) (hne : name ≠ "") :
    parts name = if name = "." then [] else [name] := by
  have hempty : name.toList ≠ [] := fun hnil => hne (String.toList_inj.mp hnil)
  rw [parts, split_of_notMem h]
  split
  · next hdot =>
    rw [hdot]
    rfl
  · next hdot =>
    have hdot' : name.toList ≠ ['.'] := fun hlist => hdot (String.toList_inj.mp hlist)
    rw [List.filter_cons_of_pos (by simp [hempty, hdot'])]
    simp

/-- A text that can stand in a path and names something by itself. -/
structure IsPlain (name : String) : Prop where
  notMem : '/' ∉ name.toList
  ne_empty : name ≠ ""
  ne_dot : name ≠ "."
  ne_dots : name ≠ ".."

/-- A plain name is its only part. -/
theorem IsPlain.parts_eq {name : String} (h : IsPlain name) : parts name = [name] := by
  rw [parts_of_notMem h.notMem h.ne_empty, if_neg h.ne_dot]

/-! ## Paths cut in two -/

/-- The beginning of a path in front of a name: nothing, or up to a slash. -/
def IsBase (front : List Char) : Prop := front = [] ∨ ∃ rest, front = rest ++ ['/']

/-- Behind a base that ends with a slash, a name gives its parts behind those of the base. -/
theorem partsOf_append {front : List Char} (h : IsBase front) (name : List Char) :
    partsOf (front ++ name) = partsOf front ++ partsOf name := by
  rcases h with rfl | ⟨rest, rfl⟩
  · rfl
  · rw [List.append_assoc, List.singleton_append, partsOf_append_slash, partsOf_append_slash]
    exact congrArg (· ++ partsOf name) (List.append_nil _).symm

/-- Without the name behind it, a base is left. -/
theorem dropWhile_reverse_append {front name : List Char} (h : IsBase front) (hname : '/' ∉ name) :
    (front ++ name).reverse.dropWhile (· != '/') = front.reverse := by
  have hskip : ∀ c ∈ name.reverse, (c != '/') = true := by
    intro c hc
    simp only [bne_iff_ne, ne_eq]
    rintro rfl
    exact hname (List.mem_reverse.mp hc)
  rw [List.reverse_append, List.dropWhile_append_of_pos hskip]
  rcases h with rfl | ⟨rest, rfl⟩
  · rfl
  · rw [List.reverse_append]
    rfl

/-- Slashes and dots at the end of a path add no parts. -/
theorem partsOf_trimEnd (reversed : List Char) :
    partsOf (trimEnd reversed).reverse = partsOf reversed.reverse := by
  have hslash : ∀ rest : List Char, partsOf ('/' :: rest).reverse = partsOf rest.reverse := by
    intro rest
    rw [List.reverse_cons, partsOf_append_slash]
    exact List.append_nil _
  fun_induction trimEnd reversed with
  | case1 => rfl
  | case2 => rfl
  | case3 rest hne ih => rw [ih, hslash]
  | case4 rest ih =>
    have hdot : ('.' :: '/' :: rest).reverse = rest.reverse ++ '/' :: ['.'] := by simp
    rw [ih, hslash, hdot, partsOf_append_slash]
    exact (List.append_nil _).symm
  | case5 => rfl
  | case6 => rfl

/-- Around a path lies what stands in front of its last name. -/
theorem parts_parent {path : String} {front name : List Char} (hpath : path.toList = front ++ name)
    (h : IsBase front) (hname : '/' ∉ name) : parts (parent path) = partsOf front := by
  rw [parts_eq_partsOf, parent, String.toList_ofList, partsOf_trimEnd, hpath,
    dropWhile_reverse_append h hname, List.reverse_reverse]

/-- Every path can be cut in front of its last name. -/
theorem exists_cut (path : List Char) :
    ∃ front name, path = front ++ name ∧ IsBase front ∧ '/' ∉ name := by
  induction path with
  | nil => exact ⟨[], [], rfl, .inl rfl, List.not_mem_nil⟩
  | cons c rest ih =>
    obtain ⟨front, name, rfl, hfront | ⟨more, rfl⟩, hname⟩ := ih
    · by_cases hc : c = '/'
      · exact ⟨['/'], name, by rw [hc, hfront]; rfl, .inr ⟨[], rfl⟩, hname⟩
      · refine ⟨[], c :: name, by rw [hfront]; rfl, .inl rfl, ?_⟩
        rw [List.mem_cons, not_or]
        exact ⟨Ne.symm hc, hname⟩
    · exact ⟨c :: (more ++ ['/']), name, rfl, .inr ⟨c :: more, rfl⟩, hname⟩

/-- A path that ends in neither a slash nor a dot leads on from where its directory is to a name. -/
theorem exists_parts_eq {path : String} {c : Char} (h : path.toList.getLast? = some c)
    (hslash : c ≠ '/') (hdot : c ≠ '.') :
    ∃ name, IsPlain name ∧ parts path = parts (parent path) ++ [name] := by
  obtain ⟨front, name, hpath, hfront, hname⟩ := exists_cut path.toList
  -- what is behind the last slash is not empty, so it ends in the same character
  have hlast : name.getLast? = some c := by
    cases name using List.reverseRecOn with
    | nil =>
      rcases hfront with rfl | ⟨rest, rfl⟩
      · rw [hpath] at h
        exact absurd h (by simp)
      · rw [hpath, List.append_nil, List.getLast?_concat] at h
        exact absurd (Option.some.inj h).symm hslash
    | append_singleton name last =>
      rw [hpath, ← List.append_assoc, List.getLast?_concat] at h
      rw [List.getLast?_concat, h]
  -- and that character tells it from the texts with a meaning of their own
  have hplain : IsPlain (String.ofList name) := by
    have hlast' : (String.ofList name).toList.getLast? = some c := by rwa [String.toList_ofList]
    refine ⟨by rwa [String.toList_ofList], ?_, ?_, ?_⟩ <;> intro heq <;> rw [heq] at hlast'
    · exact absurd hlast' (by simp)
    · exact hdot (Option.some.inj hlast').symm
    · exact hdot (Option.some.inj hlast').symm
  refine ⟨String.ofList name, hplain, ?_⟩
  rw [parts_parent hpath hfront hname, parts_eq_partsOf, hpath, partsOf_append hfront,
    ← hplain.parts_eq, parts_eq_partsOf, String.toList_ofList]

/-! ## Paths put together -/

/-- What stands in front of the name when a path is put together. -/
def joint (base : String) : List Char :=
  if base = "" then []
  else if base.toList.getLast? = some '/' then base.toList
  else base.toList ++ ['/']

/-- What a name is joined to is a base. -/
theorem isBase_joint (base : String) : IsBase (joint base) := by
  rw [joint]
  split
  · exact .inl rfl
  · split
    · next hslash => exact .inr (List.getLast?_eq_some_iff.mp hslash)
    · exact .inr ⟨base.toList, rfl⟩

/-- Joining a name to a path leaves the parts of the path as they are. -/
theorem partsOf_joint (base : String) : partsOf (joint base) = parts base := by
  rw [joint]
  split
  · next hbase =>
    rw [hbase]
    rfl
  · split
    · rfl
    · rw [partsOf_append_slash]
      exact List.append_nil _

/-- A path that leads from a directory on to a name that does not begin with a slash. -/
theorem toList_join {base name : String} (h : name.toList.head? ≠ some '/') :
    (join base name).toList = joint base ++ name.toList := by
  rw [join, joint]
  simp only [h, false_or]
  split
  · rfl
  · split
    · exact String.toList_append
    · rw [String.toList_append, String.toList_append]
      rfl

/-- A name without slashes does not begin with one. -/
theorem head?_ne_of_notMem {name : String} (h : '/' ∉ name.toList) :
    name.toList.head? ≠ some '/' :=
  fun hhead => h (List.mem_of_head? hhead)

/-- A path ends as the text that it leads on to. -/
theorem getLast?_join {base name : String} {c : Char} (h : name.toList.getLast? = some c) :
    (join base name).toList.getLast? = some c := by
  rw [join]
  split
  · exact h
  · split
    · rw [String.toList_append, List.getLast?_append, h, Option.some_or]
    · rw [String.toList_append, List.getLast?_append, h, Option.some_or]

/-- A path that is put together has the parts of both of its parts. -/
theorem parts_join_of_head? {base name : String} (h : name.toList.head? ≠ some '/') :
    parts (join base name) = parts base ++ parts name := by
  rw [parts_eq_partsOf, toList_join h, partsOf_append (isBase_joint base), partsOf_joint]
  rfl

/-- A path that leads on to a name has the parts of both. -/
theorem parts_join {base name : String} (h : '/' ∉ name.toList) :
    parts (join base name) = parts base ++ parts name :=
  parts_join_of_head? (head?_ne_of_notMem h)

/-- Around a path that leads from a directory to a name lies the directory. -/
theorem parts_parent_join {base name : String} (h : '/' ∉ name.toList) :
    parts (parent (join base name)) = parts base := by
  rw [parts_parent (toList_join (head?_ne_of_notMem h)) (isBase_joint base) h, partsOf_joint]

/-- A text under which a file can be put in a directory, but that it may have slashes: it ends in
neither a slash nor a dot, and with slashes in it it does not begin with one or with a dot. -/
structure IsEntry (file : String) : Prop where
  last : ∃ c, file.toList.getLast? = some c ∧ c ≠ '/' ∧ c ≠ '.'
  head : '/' ∈ file.toList → ∃ c, file.toList.head? = some c ∧ c ≠ '/' ∧ c ≠ '.'

/-- An entry without slashes in its name is a plain name. -/
theorem IsEntry.isPlain {file : String} (h : IsEntry file) (hslash : '/' ∉ file.toList) :
    IsPlain file := by
  obtain ⟨c, hlast, -, hdot⟩ := h.last
  refine ⟨hslash, ?_, ?_, ?_⟩ <;> rintro rfl
  · exact absurd hlast (by simp)
  · exact hdot (Option.some.inj hlast).symm
  · exact hdot (Option.some.inj hlast).symm

/-- A text with slashes leads on from a first name. -/
theorem IsEntry.exists_parts_eq_cons {file : String} (h : IsEntry file)
    (hslash : '/' ∈ file.toList) :
    ∃ first front last, IsPlain first ∧ parts file = first :: (front ++ [last]) := by
  obtain ⟨c, hhead, hc⟩ := h.head hslash
  obtain ⟨c', hlast, hc'⟩ := h.last
  obtain ⟨first, rest, hfile, hnotMem⟩ := List.eq_append_cons_of_mem hslash
  -- the ends of the text are ends of its first and its last part, and neither is a slash or a dot
  have hfirst : first.head? = some c := by
    cases first with
    | nil =>
      rw [hfile] at hhead
      exact absurd (Option.some.inj hhead).symm hc.1
    | cons d more => rwa [hfile] at hhead
  have hrest : (String.ofList rest).toList.getLast? = some c' := by
    rw [String.toList_ofList]
    cases rest using List.reverseRecOn with
    | nil =>
      rw [hfile, List.getLast?_concat] at hlast
      exact absurd (Option.some.inj hlast).symm hc'.1
    | append_singleton rest d =>
      rw [hfile, ← List.cons_append, ← List.append_assoc, List.getLast?_concat] at hlast
      rw [List.getLast?_concat, hlast]
  have hplain : IsPlain (String.ofList first) := by
    have hfirst' : (String.ofList first).toList.head? = some c := by rwa [String.toList_ofList]
    refine ⟨by rwa [String.toList_ofList], ?_, ?_, ?_⟩ <;> intro heq <;> rw [heq] at hfirst'
    · exact absurd hfirst' (by simp)
    · exact hc.2 (Option.some.inj hfirst').symm
    · exact hc.2 (Option.some.inj hfirst').symm
  obtain ⟨last, -, hparts⟩ := exists_parts_eq hrest hc'.1 hc'.2
  refine ⟨String.ofList first, parts (parent (String.ofList rest)), last, hplain, ?_⟩
  rw [parts_eq_partsOf, hfile, partsOf_append_slash, ← hparts, ← List.singleton_append,
    ← hplain.parts_eq, parts_eq_partsOf, parts_eq_partsOf, String.toList_ofList,
    String.toList_ofList]

/-- No entry has a name that begins with a slash, so none starts at the root again. -/
theorem IsEntry.head?_ne {file : String} (h : IsEntry file) : file.toList.head? ≠ some '/' := by
  by_cases hslash : '/' ∈ file.toList
  · obtain ⟨c, hhead, hc, -⟩ := h.head hslash
    rw [hhead]
    exact fun heq => hc (Option.some.inj heq)
  · exact head?_ne_of_notMem hslash

/-- The path to such a text leads on from what lies around it to a name. -/
theorem IsEntry.exists_parts_join_eq {file : String} (h : IsEntry file) (base : String) :
    ∃ name, IsPlain name ∧
      parts (join base file) = parts (parent (join base file)) ++ [name] := by
  obtain ⟨c, hlast, hslash, hdot⟩ := h.last
  exact exists_parts_eq (getLast?_join hlast) hslash hdot

/-- Around the path to such a text lies what all of its parts but the last lead on to. -/
theorem IsEntry.parts_parent_join {file : String} (h : IsEntry file) (base : String) :
    parts (parent (join base file)) = parts base ++ (parts file).dropLast := by
  obtain ⟨c, hlast, hslash, hdot⟩ := h.last
  obtain ⟨name, -, hfile⟩ := exists_parts_eq hlast hslash hdot
  obtain ⟨name', -, hjoin⟩ := h.exists_parts_join_eq base
  rw [parts_join_of_head? h.head?_ne, hfile, ← List.append_assoc] at hjoin
  rw [hfile, List.dropLast_concat, ← List.append_inj_left' hjoin rfl]

/-- Around the path to a text with slashes lies something else than the directory: the way leads on
from there by a first name. -/
theorem IsEntry.exists_parts_parent_join {file : String} (h : IsEntry file)
    (hslash : '/' ∈ file.toList) (base : String) :
    ∃ first front, IsPlain first ∧
      parts (parent (join base file)) = parts base ++ first :: front := by
  obtain ⟨first, front, last, hfirst, hparts⟩ := h.exists_parts_eq_cons hslash
  refine ⟨first, front, hfirst, ?_⟩
  rw [h.parts_parent_join, hparts, ← List.cons_append, List.dropLast_concat]

/-! ## Paths that begin alike -/

/-- Trimming takes characters from the end of a path only. -/
theorem trimEnd_suffix (reversed : List Char) : trimEnd reversed <:+ reversed := by
  fun_induction trimEnd reversed with
  | case1 => exact List.suffix_rfl
  | case2 => exact List.suffix_rfl
  | case3 rest hne ih => exact ih.trans (List.suffix_cons _ _)
  | case4 rest ih => exact ih.trans (List.suffix_cons _ _)
  | case5 => exact List.suffix_rfl
  | case6 => exact List.suffix_rfl

/-- A path begins with the path of the directory around it. -/
theorem prefix_parent (path : String) : (parent path).toList <+: path.toList := by
  rw [parent, String.toList_ofList, ← List.reverse_suffix, List.reverse_reverse]
  exact (trimEnd_suffix _).trans (List.dropWhile_suffix _)

/-- A path that leads on from a directory begins with the path of the directory. -/
theorem prefix_join {base name : String} (h : name.toList.head? ≠ some '/') :
    base.toList <+: (join base name).toList := by
  rw [toList_join h, joint]
  split
  · next hbase =>
    rw [hbase]
    exact List.nil_prefix
  · split
    · exact List.prefix_append _ _
    · rw [List.append_assoc]
      exact List.prefix_append _ _

/-- A path that leads on to a name does not name a directory from within. -/
theorem endsInDot_join {base name : String} (h : IsPlain name) :
    endsInDot (join base name) = false := by
  have hempty : name.toList ≠ [] := fun hnil => h.ne_empty (String.toList_inj.mp hnil)
  have hdot : name.toList ≠ ['.'] := fun hlist => h.ne_dot (String.toList_inj.mp hlist)
  have hlast : [name.toList].filter (· ≠ []) = [name.toList] :=
    List.filter_cons_of_pos (by simpa using hempty)
  rw [endsInDot, toList_join (head?_ne_of_notMem h.notMem)]
  rcases isBase_joint base with hfront | ⟨rest, hfront⟩
  · rw [hfront, List.nil_append, split_of_notMem h.notMem, hlast]
    simpa using hdot
  · rw [hfront, List.append_assoc, List.singleton_append, split_append_slash,
      split_of_notMem h.notMem, List.filter_append, hlast, List.getLast?_concat]
    simpa using hdot

/-! ## Names with an ending -/

/-- A name is split at its last dot, which does not stand in front. -/
theorem splitDot_eq_some {reversed behind front : List Char}
    (h : splitDot reversed = some (behind, front)) :
    reversed = behind ++ '.' :: front ∧ front ≠ [] := by
  rw [splitDot, List.span_eq_takeWhile_dropWhile] at h
  have hwhole : reversed.takeWhile (· != '.') ++ reversed.dropWhile (· != '.') = reversed :=
    List.takeWhile_append_dropWhile
  split at h
  · exact absurd h (by simp)
  · exact absurd h (by simp)
  · next behind' dot front' hne hsplit =>
    obtain ⟨rfl, rfl⟩ := Prod.mk.inj (Option.some.inj h)
    obtain ⟨htake, hdrop⟩ := Prod.mk.inj hsplit
    -- the run was ended by a dot and by nothing else
    have hdot : dot = '.' := by
      have hhead := List.head?_dropWhile_not (p := (· != '.')) reversed
      rw [hdrop] at hhead
      simpa using hhead
    rw [htake, hdrop, hdot] at hwhole
    exact ⟨hwhole.symm, hne⟩

/-- A name begins with its stem. -/
theorem prefix_stem (name : String) : (stem name).toList <+: name.toList := by
  rw [stem]
  split
  · exact List.prefix_rfl
  · next behind front hsplit =>
    rw [String.toList_ofList, ← List.reverse_suffix, List.reverse_reverse,
      (splitDot_eq_some hsplit).1]
    exact (List.suffix_cons _ _).trans (List.suffix_append _ _)

/-- The stem of a name that has an ending is part of the name, and not empty. -/
theorem stem_of_extension? {name : String} (h : (extension? name).isSome) :
    stem name ≠ "" ∧ ∀ c ∈ (stem name).toList, c ∈ name.toList := by
  refine ⟨fun hempty => ?_, fun c hc => (prefix_stem name).subset hc⟩
  rw [extension?, Option.isSome_map] at h
  obtain ⟨⟨behind, front⟩, hsplit⟩ := Option.isSome_iff_exists.mp h
  rw [stem, hsplit] at hempty
  have hnil := congrArg String.toList hempty
  simp only [String.toList_ofList] at hnil
  exact (splitDot_eq_some hsplit).2 (List.reverse_eq_nil_iff.mp hnil)

end Dialect.Files.Path

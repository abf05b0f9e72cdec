import Mathlib.Data.List.Basic

/-!
# Texts line by line

A text falls into lines at its line feeds. Written one to a line and read back (`lines_unlines`),
texts come out as they were, unless there are line feeds in them: then there are more lines than
texts. Texts that are put one behind the other keep their lines as long as each ends where a line
ends (`lines_append`), and so do remarks that are written on their lines (`Remarked`).
-/

namespace Dialect.Text

/-- The lines of a text. Each is ended by a line feed, but for the last one, which the end of the
text may end as well. -/
def lines (s : List Char) : List (List Char) :=
  let pieces := s.splitOn '\n'
  if pieces.getLast? = some [] then pieces.dropLast else pieces

/-- Texts, each ended by a line feed. -/
def unlines (texts : List (List Char)) : List Char := texts.flatMap (· ++ ['\n'])

variable {texts : List (List Char)}

theorem unlines_cons (text : List Char) (texts : List (List Char)) :
    unlines (text :: texts) = text ++ '\n' :: unlines texts := by
  simp [unlines]

/-- Strings that each end with a line feed, put together. -/
theorem toList_join_map {α : Type} {f : α → String} {g : α → List Char}
    (h : ∀ a, (f a).toList = g a ++ ['\n']) (items : List α) :
    (String.join (items.map f)).toList = unlines (items.map g) := by
  unfold unlines
  rw [String.toList_join, List.flatMap_map, List.flatMap_map]
  apply List.flatMap_congr
  intro a _
  exact h a

/-- What line feeds divide comes in one piece more than there are line feeds. -/
theorem length_splitOn (a : Char) (s : List Char) : (s.splitOn a).length = s.count a + 1 := by
  induction s with
  | nil => rfl
  | cons c rest ih =>
    rw [List.splitOn_cons_eq_if_modifyHead, List.count_cons]
    split
    · rw [List.length_cons, ih]
    · rw [List.length_modifyHead, ih, Nat.add_zero]

/-- A line feed ends the lines in front of it. -/
theorem lines_append_newline (s rest : List Char) :
    lines (s ++ '\n' :: rest) = s.splitOn '\n' ++ lines rest := by
  have hne := List.splitOn_ne_nil '\n' rest
  unfold lines
  rw [List.splitOn_append_cons_self]
  -- the last piece is that of the rest, so nothing in front of it is dropped
  simp only [List.getLast?_append_of_ne_nil _ hne, List.dropLast_append_of_ne_nil hne]
  split
  · rfl
  · rfl

/-- Texts written one to a line fall apart at the line feeds that they have in them. -/
theorem lines_unlines (texts : List (List Char)) :
    lines (unlines texts) = texts.flatMap (·.splitOn '\n') := by
  induction texts with
  | nil => rfl
  | cons text rest ih => rw [unlines_cons, lines_append_newline, ih, List.flatMap_cons]

/-- Texts without line feeds are read back. -/
theorem lines_unlines_of_forall (h : ∀ text ∈ texts, '\n' ∉ text) :
    lines (unlines texts) = texts := by
  rw [lines_unlines]
  induction texts with
  | nil => rfl
  | cons text rest ih =>
    obtain ⟨htext, hrest⟩ := List.forall_mem_cons.mp h
    rw [List.flatMap_cons, List.splitOn_eq_singleton htext, ih hrest, List.singleton_append]

/-- There are as many lines as texts, and one more for each line feed in them. -/
theorem length_lines_unlines (texts : List (List Char)) :
    (lines (unlines texts)).length = texts.length + texts.flatten.count '\n' := by
  rw [lines_unlines]
  induction texts with
  | nil => rfl
  | cons text rest ih =>
    rw [List.flatMap_cons, List.length_append, ih, length_splitOn, List.length_cons,
      List.flatten_cons, List.count_append]
    omega

/-- There are as many lines as texts exactly if no text has a line feed in it. -/
theorem length_lines_unlines_eq_iff :
    (lines (unlines texts)).length = texts.length ↔ ∀ text ∈ texts, '\n' ∉ text := by
  rw [length_lines_unlines, Nat.add_eq_left, List.count_eq_zero, List.mem_flatten]
  simp only [not_exists, not_and]

/-! ## Texts one behind the other -/

variable {s t text remark : List Char}

/-- The text ends where a line ends. -/
def EndsLine (s : List Char) : Prop := ∀ c ∈ s.getLast?, c = '\n'

theorem endsLine_nil : EndsLine [] := nofun

theorem endsLine_concat (s : List Char) : EndsLine (s ++ ['\n']) := by
  intro c hc
  rw [List.getLast?_concat] at hc
  exact (Option.some.inj hc).symm

/-- Texts that end where lines end do so together. -/
theorem EndsLine.append (h : EndsLine s) (h' : EndsLine t) : EndsLine (s ++ t) := by
  intro c hc
  rw [List.getLast?_append, Option.mem_def, Option.or_eq_some_iff] at hc
  rcases hc with hc | ⟨-, hc⟩
  · exact h' c hc
  · exact h c hc

/-- A text with a line feed at its end has the lines that the feeds inside it make. -/
theorem lines_concat (s : List Char) : lines (s ++ ['\n']) = s.splitOn '\n' := by
  have hlines := lines_append_newline s []
  rwa [show lines [] = [] from rfl, List.append_nil] at hlines

/-- The lines of a text that ends where a line ends do not go on in what stands behind it. -/
theorem lines_append (h : EndsLine s) (t : List Char) : lines (s ++ t) = lines s ++ lines t := by
  rcases List.eq_nil_or_concat s with rfl | ⟨front, c, rfl⟩
  · rfl
  · rw [List.concat_eq_append] at h ⊢
    obtain rfl : c = '\n' := h c List.getLast?_concat
    rw [lines_concat, List.append_assoc, List.singleton_append, lines_append_newline]

/-! ## Remarks -/

/-- The lines of the last list are those of the one before it with the remarks written on them, in
order: each remark stands at the end of a line, or on a line of its own. -/
inductive Remarked : List String → List (List Char) → List (List Char) → Prop
  | nil : Remarked [] [] []
  | bare {remarks : List String} {before after : List (List Char)} (line : List Char)
      (h : Remarked remarks before after) : Remarked remarks (line :: before) (line :: after)
  | behind {remarks : List String} {before after : List (List Char)} (line : List Char)
      (remark : String) (h : Remarked remarks before after) :
      Remarked (remark :: remarks) (line :: before) ((line ++ remark.toList) :: after)
  | alone {remarks : List String} {before after : List (List Char)} (remark : String)
      (h : Remarked remarks before after) :
      Remarked (remark :: remarks) before (remark.toList :: after)

namespace Remarked

variable {remarks remarks' : List String} {before before' after after' : List (List Char)}

theorem refl (l : List (List Char)) : Remarked [] l l := by
  induction l with
  | nil => exact .nil
  | cons line l ih => exact .bare line ih

/-- Two texts with remarks have the remarks of both, one behind the other. -/
theorem append (h : Remarked remarks before after) (h' : Remarked remarks' before' after') :
    Remarked (remarks ++ remarks') (before ++ before') (after ++ after') := by
  induction h with
  | nil => exact h'
  | bare line _ ih => exact .bare line ih
  | behind line remark _ ih => exact .behind line remark ih
  | alone remark _ ih => exact .alone remark ih

/-- Each remark is at the end of a line. -/
theorem exists_mem (h : Remarked remarks before after) {remark : String} (hr : remark ∈ remarks) :
    ∃ line ∈ after, remark.toList <:+ line := by
  induction h with
  | nil => exact absurd hr List.not_mem_nil
  | bare line _ ih =>
    obtain ⟨found, hmem, hsuffix⟩ := ih hr
    exact ⟨found, List.mem_cons_of_mem _ hmem, hsuffix⟩
  | behind line own _ ih =>
    rcases List.mem_cons.mp hr with rfl | hr
    · exact ⟨_, List.mem_cons_self, List.suffix_append line _⟩
    · obtain ⟨found, hmem, hsuffix⟩ := ih hr
      exact ⟨found, List.mem_cons_of_mem _ hmem, hsuffix⟩
  | alone own _ ih =>
    rcases List.mem_cons.mp hr with rfl | hr
    · exact ⟨_, List.mem_cons_self, List.suffix_refl _⟩
    · obtain ⟨found, hmem, hsuffix⟩ := ih hr
      exact ⟨found, List.mem_cons_of_mem _ hmem, hsuffix⟩

/-- Remarks on texts that end where a line ends do not get in the way of those on what stands
behind them. -/
theorem lines_append {s s' t t' : String} (hs : EndsLine s.toList) (hs' : EndsLine s'.toList)
    (h : Remarked remarks (lines s.toList) (lines s'.toList))
    (h' : Remarked remarks' (lines t.toList) (lines t'.toList)) :
    Remarked (remarks ++ remarks') (lines (s ++ t).toList) (lines (s' ++ t').toList) := by
  rw [String.toList_append, String.toList_append, Text.lines_append hs, Text.lines_append hs']
  exact h.append h'

end Remarked

/-- What has no line feed in it goes on the last line. -/
theorem exists_splitOn_append (text : List Char) (h : '\n' ∉ remark) :
    ∃ front last, text.splitOn '\n' = front ++ [last] ∧
      (text ++ remark).splitOn '\n' = front ++ [last ++ remark] := by
  induction text with
  | nil => exact ⟨[], [], rfl, List.splitOn_eq_singleton h⟩
  | cons c text ih =>
    obtain ⟨front, last, htext, hboth⟩ := ih
    rw [List.cons_append, List.splitOn_cons_eq_if_modifyHead, List.splitOn_cons_eq_if_modifyHead,
      htext, hboth]
    split
    · exact ⟨[] :: front, last, rfl, rfl⟩
    · cases front with
      | nil => exact ⟨[], c :: last, rfl, rfl⟩
      | cons first front => exact ⟨(c :: first) :: front, last, rfl, rfl⟩

/-- A remark at the end of a row. -/
theorem remarked_row (text : List Char) {remark : String} (h : '\n' ∉ remark.toList) :
    Remarked [remark] (lines (text ++ ['\n'])) (lines (text ++ remark.toList ++ ['\n'])) := by
  obtain ⟨front, last, htext, hboth⟩ := exists_splitOn_append text h
  rw [lines_concat, lines_concat, htext, hboth]
  exact (Remarked.refl front).append (.behind last remark .nil)

/-- A remark on a line of its own. -/
theorem remarked_line {remark : String} (h : '\n' ∉ remark.toList) :
    Remarked [remark] [] (lines (remark.toList ++ ['\n'])) := by
  rw [lines_concat, List.splitOn_eq_singleton h]
  exact .alone remark .nil

end Dialect.Text

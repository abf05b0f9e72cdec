import Dialect.Listing.Table
import Dialect.Proofs.Schema.Table
import Dialect.Proofs.Text.Column
import Dialect.Proofs.Text.Lines

/-!
# The listing of all codes

Items are put on lines one after the other. Whatever holds of a line with any one item on it, and of
a line that an item still goes on, holds of all lines (`forall_mem_wrap`), and the lines together
are the items with blanks between them (`spaced_wrap`), wherever the lines end. So the codes can be
read from the listing, each once and in order, and no line of it is too long or blank.
-/

namespace Dialect.Listing

open Dialect.Schema (Table)
open Dialect.Text (AllBlank lines trim unlines)

/-! ## Items on lines -/

/-- What every line has that begins with an item, and keeps while items go on it. -/
theorem forall_mem_wrap {P : String → Prop} {line : String} {items : List String} (hline : P line)
    (hfirst : ∀ item ∈ items, P (margin ++ item))
    (hnext : ∀ line, P line → ∀ item ∈ items, line.length + item.length ≤ lineWidth →
      P (line ++ item)) :
    ∀ l ∈ wrap line items, P l := by
  fun_induction wrap line items with
  | case1 line => simpa using hline
  | case2 line item rest _ ih =>
    obtain ⟨hitem, hrest⟩ := List.forall_mem_cons.mp hfirst
    refine List.forall_mem_cons.mpr ⟨hline, ih hitem hrest ?_⟩
    intro l hl i hi
    exact hnext l hl i (List.mem_cons_of_mem item hi)
  | case3 line item rest hfits ih =>
    have hitem := hnext line hline item List.mem_cons_self (Nat.not_lt.mp hfits)
    refine ih hitem (List.forall_mem_cons.mp hfirst).2 ?_
    intro l hl i hi
    exact hnext l hl i (List.mem_cons_of_mem item hi)

/-- The text is the items one behind the other, with blanks in front of each and at the end. -/
inductive Spaced : List String → List Char → Prop where
  | nil {back : List Char} : AllBlank back → Spaced [] back
  | cons {front : List Char} {item : String} {items : List String} {rest : List Char} :
    AllBlank front → Spaced items rest → Spaced (item :: items) (front ++ item.toList ++ rest)

/-- Blanks may be put in front. -/
theorem Spaced.prepend {front : List Char} {items : List String} {s : List Char}
    (hfront : AllBlank front) (h : Spaced items s) : Spaced items (front ++ s) := by
  cases h with
  | nil hback => exact .nil (Text.allBlank_append hfront hback)
  | cons hfront' hrest =>
    rw [← List.append_assoc, ← List.append_assoc]
    exact .cons (Text.allBlank_append hfront hfront') hrest

/-- Lines put together are the items, where a line that has been begun goes on with the first. -/
theorem spaced_wrap (line : String) (items : List String) :
    ∃ rest, unlines ((wrap line items).map String.toList) = line.toList ++ rest ∧
      Spaced items rest := by
  fun_induction wrap line items with
  | case1 line => exact ⟨['\n'], by simp [unlines], .nil (by decide)⟩
  | case2 line item rest _ ih =>
    obtain ⟨behind, htext, hspaced⟩ := ih
    refine ⟨'\n' :: margin.toList ++ item.toList ++ behind, ?_, .cons (by decide) hspaced⟩
    rw [List.map_cons, Text.unlines_cons, htext, String.toList_append]
    simp
  | case3 line item rest _ ih =>
    obtain ⟨behind, htext, hspaced⟩ := ih
    refine ⟨[] ++ item.toList ++ behind, ?_, .cons Text.allBlank_nil hspaced⟩
    rw [htext, String.toList_append, List.append_assoc, List.nil_append]

/-! ## Codes as items -/

/-- What is between the commas of a text, without the blanks around it. -/
def fieldsOf (s : List Char) : List (List Char) := (s.splitOn ',').map trim

/-- A number with a space in front, as an item has it. -/
theorem toList_numberText (n : UInt8) : s!" {n}".toList = ' ' :: n.toNat.repr.toList := by
  show (" " ++ n.toNat.repr).toList = _
  rw [String.toList_append]
  rfl

/-- A number with a space in front and a comma behind, as all items but the last have it. -/
theorem toList_commaText (n : UInt8) : s!" {n},".toList = ' ' :: n.toNat.repr.toList ++ [','] := by
  show (" " ++ n.toNat.repr ++ ",").toList = _
  rw [String.toList_append, String.toList_append]
  rfl

/-- A number between blanks is one field, and what is left of it without them is the number. -/
theorem fieldsOf_number (n : UInt8) {front back : List Char} (hfront : AllBlank front)
    (hback : AllBlank back) :
    ',' ∉ front ++ ' ' :: n.toNat.repr.toList ++ back ∧
      trim (front ++ ' ' :: n.toNat.repr.toList ++ back) = n.toNat.repr.toList := by
  have hnumeral := Text.isNumeral_repr n.toNat
  -- neither blanks nor digits are commas
  have hcomma : ∀ {s : List Char}, AllBlank s → ',' ∉ s := by
    intro s hs hc
    exact absurd (hs ',' hc) (by decide)
  have hspace : AllBlank (front ++ [' ']) := Text.allBlank_append hfront (by decide)
  rw [List.append_cons]
  constructor
  · intro hc
    rcases List.mem_append.mp hc with hc | hc
    · rcases List.mem_append.mp hc with hc | hc
      · exact hcomma hspace hc
      · exact hnumeral.plain.2 hc
    · exact hcomma hback hc
  · exact hnumeral.trim_eq hspace hback

/-- Numbers written as items are read back, whatever blanks are between them. -/
theorem fieldsOf_of_spaced {n : UInt8} {ns : List UInt8} {s : List Char}
    (h : Spaced (items (n :: ns)) s) :
    fieldsOf s = (n :: ns).map fun n => n.toNat.repr.toList := by
  -- on the numbers; a comma ends each of them but the last
  induction ns generalizing n s with
  | nil =>
    obtain _ | ⟨hfront, hrest⟩ := h
    obtain ⟨hback⟩ := hrest
    obtain ⟨hcomma, htrim⟩ := fieldsOf_number n hfront hback
    unfold fieldsOf
    rw [toList_numberText, List.splitOn_eq_singleton hcomma, List.map_singleton, htrim]
    rfl
  | cons m rest ih =>
    obtain _ | @⟨front, _, _, behind, hfront, hrest⟩ := h
    obtain ⟨hcomma, htrim⟩ := fieldsOf_number n hfront Text.allBlank_nil
    rw [List.append_nil] at hcomma htrim
    have hsplit : front ++ s!" {n},".toList ++ behind =
        front ++ ' ' :: n.toNat.repr.toList ++ ',' :: behind := by
      rw [toList_commaText]
      simp
    rw [hsplit, fieldsOf, List.splitOn_append_cons_self_of_not_mem hcomma, List.map_cons, htrim,
      List.map_cons, ← ih hrest]
    rfl

/-- What the text of an item is: a number with a space in front, and perhaps a comma behind. -/
theorem exists_of_mem_items {ns : List UInt8} {item : String} (h : item ∈ items ns) :
    ∃ (n : UInt8) (back : List Char), (back = [] ∨ back = [',']) ∧
      item.toList = ' ' :: n.toNat.repr.toList ++ back := by
  fun_induction items ns with
  | case1 => exact absurd h List.not_mem_nil
  | case2 n =>
    obtain rfl := List.mem_singleton.mp h
    exact ⟨n, [], .inl rfl, by rw [toList_numberText, List.append_nil]⟩
  | case3 n rest _ ih =>
    rcases List.mem_cons.mp h with rfl | h
    · exact ⟨n, [','], .inr rfl, toList_commaText n⟩
    · exact ih h

/-- Items are short, not blank and without line feeds. -/
theorem plain_of_mem_items {ns : List UInt8} {item : String} (h : item ∈ items ns) :
    item.length ≤ 5 ∧ ¬ AllBlank item.toList ∧ '\n' ∉ item.toList := by
  obtain ⟨n, back, hback, hitem⟩ := exists_of_mem_items h
  have hnumeral := Text.isNumeral_repr n.toNat
  -- an item is a space, up to three digits and a comma if it is not the last
  have hdigits := Text.length_repr_le n
  refine ⟨?_, fun hblank => ?_, fun hfeed => ?_⟩
  · have hlength : back.length ≤ 1 := by rcases hback with rfl | rfl <;> decide
    rw [← String.length_toList, hitem, List.length_append, List.length_cons, String.length_toList]
    omega
  · obtain ⟨c, rest, hc, -⟩ := hnumeral.exists_cons
    apply hnumeral.plain.1 c (by rw [hc]; exact List.mem_cons_self)
    apply hblank
    rw [hitem, hc]
    simp
  · rw [hitem] at hfeed
    rcases List.mem_append.mp hfeed with hfeed | hfeed
    · rcases List.mem_cons.mp hfeed with hfeed | hfeed
      · exact absurd hfeed (by decide)
      · exact hnumeral.blank_notMem (by decide) hfeed
    · rcases hback with rfl | rfl
      · exact absurd hfeed List.not_mem_nil
      · exact absurd hfeed (by decide)

/-! ## The listing -/

/-- A line that may stand in the listing. -/
structure Proper (line : String) : Prop where
  length_le : line.length ≤ lineWidth
  not_blank : ¬ AllBlank line.toList
  notMem : '\n' ∉ line.toList

/-- A line without line feeds stays proper, or becomes it, when an item goes on it that fits. -/
theorem proper_append {line item : String} {ns : List UInt8} (hline : '\n' ∉ line.toList)
    (hitem : item ∈ items ns) (hfits : line.length + item.length ≤ lineWidth) :
    Proper (line ++ item) := by
  obtain ⟨-, hblank, hfeed⟩ := plain_of_mem_items hitem
  refine ⟨by rwa [String.length_append], fun hall => ?_, fun hmem => ?_⟩
  · apply hblank
    intro c hc
    apply hall
    rw [String.toList_append]
    exact List.mem_append_right _ hc
  · rw [String.toList_append] at hmem
    rcases List.mem_append.mp hmem with hmem | hmem
    · exact hline hmem
    · exact hfeed hmem

/-- Numbers are put on proper lines. -/
theorem proper_of_mem_wrap {n : UInt8} {ns : List UInt8} :
    ∀ line ∈ wrap margin (items (n :: ns)), Proper line := by
  have hfirst : ∀ item ∈ items (n :: ns), Proper (margin ++ item) := by
    intro item hitem
    apply proper_append (by decide) hitem
    have hshort := (plain_of_mem_items hitem).1
    have hmargin : margin.length = 1 := rfl
    unfold lineWidth
    omega
  obtain ⟨item, rest, hitems⟩ : ∃ item rest, items (n :: ns) = item :: rest := by
    cases ns with
    | nil => exact ⟨_, _, rfl⟩
    | cons m more => exact ⟨_, _, rfl⟩
  have hitem : item ∈ items (n :: ns) := by
    rw [hitems]
    exact List.mem_cons_self
  have hrest : ∀ i ∈ rest, i ∈ items (n :: ns) := by
    intro i hi
    rw [hitems]
    exact List.mem_cons_of_mem item hi
  -- the first item always fits, so no line has nothing but the margin
  have hfits : ¬ lineWidth < margin.length + item.length := by
    rw [← String.length_append]
    exact Nat.not_lt.mpr (hfirst item hitem).length_le
  rw [hitems, wrap, if_neg hfits]
  apply forall_mem_wrap (hfirst item hitem)
  · intro i hi
    exact hfirst i (hrest i hi)
  · intro line hline i hi
    exact proper_append hline.notMem (hrest i hi)

/-- The listing is its first line, the lines of the items, and its last line. -/
theorem toList_codes (t : Table) :
    (codes t).toList = unlines ("crc_extra[255] = \x7b".toList ::
      ((wrap margin (items t.codes)).map String.toList ++ ["\x7d".toList])) := by
  have hhead : s!"crc_extra[{Table.size}] = \x7b\n".toList =
      "crc_extra[255] = \x7b".toList ++ ['\n'] := by
    decide +kernel
  have hbody : (String.join ((wrap margin (items t.codes)).map (· ++ "\n"))).toList =
      unlines ((wrap margin (items t.codes)).map String.toList) := by
    apply Text.toList_join_map
    intro l
    rw [String.toList_append]
    rfl
  unfold codes
  rw [String.toList_append, String.toList_append, hhead, hbody, Text.unlines_cons]
  simp [unlines]

/-- A table has codes, so there is an item to begin with. -/
theorem exists_codes_eq_cons (t : Table) : ∃ n ns, t.codes = n :: ns := by
  apply List.exists_cons_of_length_pos
  rw [t.length_codes]
  decide

/-- The lines of the codes are proper. -/
theorem proper_of_mem_codes {t : Table} :
    ∀ line ∈ wrap margin (items t.codes), Proper line := by
  obtain ⟨n, ns, hcodes⟩ := exists_codes_eq_cons t
  rw [hcodes]
  exact proper_of_mem_wrap

/-- The lines of the listing are the ones it is put together from. -/
theorem lines_codes (t : Table) :
    lines (codes t).toList = "crc_extra[255] = \x7b".toList ::
      ((wrap margin (items t.codes)).map String.toList ++ ["\x7d".toList]) := by
  rw [toList_codes]
  apply Text.lines_unlines_of_forall
  rw [List.forall_mem_cons, List.forall_mem_append, List.forall_mem_map]
  refine ⟨by decide, fun l hl => ?_, by decide⟩
  exact (proper_of_mem_codes l hl).notMem

/-- What stands between the commas of the lines are the codes. -/
theorem fieldsOf_codes (t : Table) :
    fieldsOf (unlines ((wrap margin (items t.codes)).map String.toList)) =
      t.codes.map fun n => n.toNat.repr.toList := by
  obtain ⟨n, ns, hcodes⟩ := exists_codes_eq_cons t
  obtain ⟨rest, hrest, hspaced⟩ := spaced_wrap margin (items t.codes)
  rw [hrest]
  rw [hcodes] at hspaced ⊢
  exact fieldsOf_of_spaced (hspaced.prepend (by decide))

/-- **The codes can be read from their listing.** The listing of a table is a first line, a last
line, and lines between them; none has more than 80 characters, and those between are not blank.
What stands there between commas, without the blanks around it, are the 255 codes of the table in
decimal, one after the other, and nothing else; so there is no comma behind the last one. -/
theorem codes_reads_back (t : Table) :
    ∃ body : List (List Char),
      (codes t).toList =
        unlines ("crc_extra[255] = \x7b".toList :: (body ++ ["\x7d".toList])) ∧
      lines (codes t).toList = "crc_extra[255] = \x7b".toList :: (body ++ ["\x7d".toList]) ∧
      (∀ line ∈ lines (codes t).toList, line.length ≤ 80) ∧
      (∀ line ∈ body, ¬ AllBlank line) ∧
      fieldsOf (unlines body) = t.codes.map (fun n => n.toNat.repr.toList) ∧
      (fieldsOf (unlines body)).map (Text.numeral? 10) = t.codes.map (fun n => some n.toNat) ∧
      (fieldsOf (unlines body)).length = 255 := by
  have hfields := fieldsOf_codes t
  refine ⟨_, toList_codes t, lines_codes t, ?_, ?_, hfields, ?_, ?_⟩
  · rw [lines_codes, List.forall_mem_cons, List.forall_mem_append, List.forall_mem_map]
    refine ⟨by decide, fun l hl => ?_, by decide⟩
    rw [String.length_toList]
    exact (proper_of_mem_codes l hl).length_le
  · intro line hline
    obtain ⟨l, hl, rfl⟩ := List.mem_map.mp hline
    exact (proper_of_mem_codes l hl).not_blank
  · rw [hfields, List.map_map]
    apply List.map_congr_left
    intro n _
    exact Text.numeral?_eq_some_iff.mpr (Text.isNumeral_repr n.toNat)
  · rw [hfields, List.length_map, t.length_codes]
    rfl

/-- A table with a message at each end. -/
def endsTable : Table := ⟨[⟨254, "LAST", 7⟩, ⟨0, "FIRST", 50⟩]⟩

/-- A table whose first and last slots are filled. -/
theorem codes_reads_back_sample :
    ∃ body : List (List Char),
      lines (codes endsTable).toList =
        "crc_extra[255] = \x7b".toList :: (body ++ ["\x7d".toList]) ∧
      "crc_extra[255] = \x7b".toList.length ≤ 80 ∧
      (fieldsOf (unlines body))[0]? = some "50".toList ∧
      (fieldsOf (unlines body))[254]? = some "7".toList ∧
      (fieldsOf (unlines body)).length = 255 := by
  obtain ⟨body, -, hlines, hwidths, -, hfields, -, hlength⟩ := codes_reads_back endsTable
  refine ⟨body, hlines, hwidths _ ?_, ?_, ?_, hlength⟩
  · rw [hlines]
    exact List.mem_cons_self
  · rw [hfields]
    decide +kernel
  · rw [hfields]
    decide +kernel

end Dialect.Listing

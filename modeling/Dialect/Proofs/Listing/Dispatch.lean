import Dialect.Listing.Table
import Dialect.Proofs.Schema.Document
import Dialect.Proofs.Schema.LayoutBytes
import Dialect.Proofs.Text.Column
import Dialect.Proofs.Text.Lines

/-!
# The listing of messages by id

Each filled slot of a table has its row. The id and the code can be read from it, and the name but
for spaces at its end that fill up the column (`rowText_eq_iff`). Rows and lines are the same as
long as no name has a line feed in it; nothing keeps line feeds out of names, and a name that has
one can make up a row for a message that there is not.
-/

namespace Dialect.Listing

open Dialect.Schema (Document Slot Table)
open Dialect.Text (Settled lines padLeft padRight unlines)

variable {s s' : Slot} {t t' : Table}

/-! ## Rows -/

/-- The row of a slot, without the line feed that ends it. -/
def rowText (s : Slot) : List Char :=
  (padLeft 3 s.id.toNat.repr).toList ++ ' ' ::
    ((padRight 32 s.name).toList ++ ' ' :: s.code.toNat.repr.toList)

/-- The line gives the slot: its id at the right of three columns, a space, its name at the left of
thirty-two columns, or of as many as it has characters, a space, and its code. -/
def IsRow (s : Slot) (line : List Char) : Prop :=
  ∃ id name : List Char, line = id ++ ' ' :: (name ++ ' ' :: s.code.toNat.repr.toList) ∧
    (∃ fill, id = List.replicate fill ' ' ++ s.id.toNat.repr.toList) ∧ id.length = 3 ∧
    (∃ fill, name = s.name.toList ++ List.replicate fill ' ') ∧
    name.length = max 32 s.name.length

/-- The slots differ in nothing but spaces that fill up the column of the name. -/
structure Alike (s s' : Slot) : Prop where
  id_eq : s.id = s'.id
  name_eq : padRight 32 s.name = padRight 32 s'.name
  code_eq : s.code = s'.code

/-- An id fits into its column. -/
theorem length_id (id : UInt8) : (padLeft 3 id.toNat.repr).toList.length = 3 := by
  have hdigits := Text.length_repr_le id
  rw [Text.length_padLeft]
  omega

/-- The row of a slot has the three columns. -/
theorem isRow_rowText (s : Slot) : IsRow s (rowText s) := by
  refine ⟨_, _, rfl, ⟨_, Text.toList_padLeft 3 _⟩, length_id s.id,
    ⟨_, Text.toList_padRight 32 _⟩, ?_⟩
  exact Text.length_padRight 32 s.name

/-- What stands in front of the last separator and what stands behind it. -/
theorem append_last_eq_iff {α : Type} {sep : α} {a b x y : List α} (hx : sep ∉ x) (hy : sep ∉ y) :
    a ++ sep :: x = b ++ sep :: y ↔ a = b ∧ x = y := by
  have hreversed : x.reverse ++ sep :: a.reverse = y.reverse ++ sep :: b.reverse ↔
      x.reverse = y.reverse ∧ a.reverse = b.reverse :=
    Schema.append_cons_eq_iff (mt List.mem_reverse.mp hx) (mt List.mem_reverse.mp hy)
  rw [← List.reverse_inj, List.reverse_append, List.reverse_append, List.reverse_cons,
    List.reverse_cons, List.append_assoc, List.append_assoc, List.singleton_append,
    List.singleton_append, hreversed, List.reverse_inj, List.reverse_inj, and_comm]

/-- A number is known from its digits. -/
theorem eq_of_toList_repr {n m : UInt8} (h : n.toNat.repr.toList = m.toNat.repr.toList) :
    n = m := by
  have hn := Text.numeral?_eq_some_iff.mpr (Text.isNumeral_repr n.toNat)
  rw [h, Text.numeral?_eq_some_iff.mpr (Text.isNumeral_repr m.toNat)] at hn
  exact UInt8.toNat_inj.mp (Option.some.inj hn).symm

/-- What the row of a slot tells of it. -/
theorem rowText_eq_iff : rowText s = rowText s' ↔ Alike s s' := by
  constructor
  · intro h
    obtain ⟨hid, hrest⟩ := List.append_inj h ((length_id s.id).trans (length_id s'.id).symm)
    have hlast := (List.cons.inj hrest).2
    -- names may have spaces in them, but codes have none
    rw [append_last_eq_iff ((Text.isNumeral_repr _).blank_notMem (by decide))
      ((Text.isNumeral_repr _).blank_notMem (by decide))] at hlast
    have htrim := congrArg Text.trim hid
    rw [Text.trim_padLeft_repr, Text.trim_padLeft_repr] at htrim
    exact ⟨eq_of_toList_repr htrim, String.toList_inj.mp hlast.1, eq_of_toList_repr hlast.2⟩
  · intro h
    unfold rowText
    rw [h.id_eq, h.name_eq, h.code_eq]

/-- Tables have the same rows exactly if their slots cannot be told apart one by one. -/
theorem map_rowText_eq_iff {slots slots' : List Slot} :
    slots.map rowText = slots'.map rowText ↔ List.Forall₂ Alike slots slots' := by
  rw [← List.forall₂_eq_eq_eq, List.forall₂_map_left_iff, List.forall₂_map_right_iff]
  simp only [rowText_eq_iff]

/-- Alike slots are the same, if no name ends with a space that could have come from its column. -/
theorem Alike.eq (h : Alike s s') (hs : Settled 32 s.name) (hs' : Settled 32 s'.name) : s = s' := by
  have hname := (Text.padRight_inj hs hs').mp h.name_eq
  cases s
  cases s'
  simp only at hname
  rw [Slot.mk.injEq]
  exact ⟨h.id_eq, hname, h.code_eq⟩

/-- The only line feeds in a row are those of the name. -/
theorem newline_mem_rowText : '\n' ∈ rowText s ↔ '\n' ∈ s.name.toList := by
  have hdigits : ∀ n : Nat, '\n' ∉ n.repr.toList := by
    intro n
    exact (Text.isNumeral_repr n).blank_notMem (by decide)
  have hspaces : ∀ n : Nat, '\n' ∉ List.replicate n ' ' := by
    intro n hn
    exact absurd (List.eq_of_mem_replicate hn) (by decide)
  have hspace : '\n' ≠ ' ' := by decide
  unfold rowText
  simp only [Text.toList_padLeft, Text.toList_padRight, List.mem_append, List.mem_cons, hdigits,
    hspaces, hspace, false_or, or_false]

/-! ## The listing -/

/-- The listing is the rows of the filled slots, each on a line. -/
theorem toList_dispatch (t : Table) :
    (dispatch t).toList = unlines (t.entries.map rowText) := by
  apply Text.toList_join_map
  intro s
  show (padLeft 3 s.id.toNat.repr ++ " " ++ padRight 32 s.name ++ " " ++ s.code.toNat.repr ++
    "\n").toList = _
  unfold rowText
  simp

/-- As long as no name has a line feed in it, the lines are the rows. -/
theorem lines_dispatch (h : ∀ s ∈ t.entries, '\n' ∉ s.name.toList) :
    lines (dispatch t).toList = t.entries.map rowText := by
  rw [toList_dispatch]
  apply Text.lines_unlines_of_forall
  intro row hrow
  obtain ⟨s, hs, rfl⟩ := List.mem_map.mp hrow
  exact mt newline_mem_rowText.mp (h s hs)

/-- There are as many lines as filled slots exactly if no name has a line feed in it. -/
theorem length_lines_dispatch_eq_iff (t : Table) :
    (lines (dispatch t).toList).length = t.entries.length ↔
      ∀ s ∈ t.entries, '\n' ∉ s.name.toList := by
  have hlength : (t.entries.map rowText).length = t.entries.length := List.length_map rowText
  rw [toList_dispatch, ← hlength, Text.length_lines_unlines_eq_iff, List.forall_mem_map]
  simp only [newline_mem_rowText]

/-- Two tables have the same listing exactly if they have the same rows, as long as no name has a
line feed in it. -/
theorem dispatch_eq_iff (h : ∀ s ∈ t.entries ++ t'.entries, '\n' ∉ s.name.toList) :
    dispatch t = dispatch t' ↔ List.Forall₂ Alike t.entries t'.entries := by
  obtain ⟨hnames, hnames'⟩ := List.forall_mem_append.mp h
  rw [← map_rowText_eq_iff]
  constructor
  · intro heq
    rw [← lines_dispatch hnames, ← lines_dispatch hnames', heq]
  · intro heq
    rw [← String.toList_inj, toList_dispatch, toList_dispatch, heq]

/-- Rows tell slots apart whose names do not end with spaces that their columns may have. -/
theorem forall₂_alike_iff_eq {slots slots' : List Slot}
    (h : ∀ s ∈ slots ++ slots', Settled 32 s.name) :
    List.Forall₂ Alike slots slots' ↔ slots = slots' := by
  constructor
  · intro hall
    induction hall with
    | nil => rfl
    | @cons s s' rest rest' hs _ ih =>
      have hhead := h s (by simp)
      have hhead' := h s' (by simp)
      rw [hs.eq hhead hhead', ih fun x hx => h x ?_]
      rcases List.mem_append.mp hx with hx | hx
      · exact List.mem_append_left _ (List.mem_cons_of_mem _ hx)
      · exact List.mem_append_right _ (List.mem_cons_of_mem _ hx)
  · intro heq
    rw [heq, List.forall₂_same]
    intro s _
    exact ⟨rfl, rfl, rfl⟩

/-- Every filled slot of a document's table is an entry, once. -/
theorem length_entries {name source : String} {workers : Nat} {d : Document}
    (h : Document.ofSource name source workers = .ok d) :
    d.table.entries.length = d.table.count := by
  obtain ⟨root, -, hroot⟩ := bind_eq_ok_iff.mp h
  obtain rfl := Except.ok.inj hroot
  rw [Document.table_ofElement]
  exact (Document.consistent_intake root).lawful.entries_perm.length_eq

/-- **What can be told from the listing of messages.** The entries of a compiled document's table
are its filled slots in the order of their ids, and the listing is their rows, each with a line feed
behind it. There is one line for each entry if, and only if, no name has a line feed in it; the
lines then give the entries one by one, and two such documents have the same listing exactly if
their entries differ in nothing but spaces at the ends of names that fill up their columns. Entries
without such spaces are told apart. -/
theorem dispatch_reads_back {name source : String} {workers : Nat} {d : Document}
    (h : Document.ofSource name source workers = .ok d) :
    d.table.entries.length = d.table.count ∧
      d.table.entries.Pairwise (fun s s' => s.id < s'.id) ∧
      (dispatch d.table).toList = unlines (d.table.entries.map rowText) ∧
      (∀ s, IsRow s (rowText s)) ∧
      ((lines (dispatch d.table).toList).length = d.table.count ↔
        ∀ s ∈ d.table.entries, '\n' ∉ s.name.toList) ∧
      ((∀ s ∈ d.table.entries, '\n' ∉ s.name.toList) →
        List.Forall₂ IsRow d.table.entries (lines (dispatch d.table).toList)) ∧
      ∀ name' source' workers' d', Document.ofSource name' source' workers' = .ok d' →
        (∀ s ∈ d.table.entries ++ d'.table.entries, '\n' ∉ s.name.toList) →
        (dispatch d.table = dispatch d'.table ↔
          List.Forall₂ Alike d.table.entries d'.table.entries) ∧
        ((∀ s ∈ d.table.entries ++ d'.table.entries, Settled 32 s.name) →
          (dispatch d.table = dispatch d'.table ↔ d.table.entries = d'.table.entries)) := by
  have hcount := length_entries h
  refine ⟨hcount, d.table.pairwise_entries, toList_dispatch _, isRow_rowText, ?_, ?_, ?_⟩
  · rw [← hcount]
    exact length_lines_dispatch_eq_iff d.table
  · intro hnames
    rw [lines_dispatch hnames, List.forall₂_map_right_iff, List.forall₂_same]
    intro s _
    exact isRow_rowText s
  · intro _ _ _ d' _ hnames
    have hrows := dispatch_eq_iff hnames
    refine ⟨hrows, fun hsettled => ?_⟩
    rw [hrows, forall₂_alike_iff_eq hsettled]

/-- Two messages, the second of which stands first. -/
def pairSource : String :=
  "<d><messages><message id='4' name='BATTERY_STATUS_OF_ALL_CELLS_LAST'/>" ++
    "<message id='0' name='A'/></messages></d>"

def pairTable : Table := ⟨[⟨4, "BATTERY_STATUS_OF_ALL_CELLS_LAST", 203⟩, ⟨0, "A", 138⟩]⟩

/-- A document whose table has two slots. -/
theorem exists_pair :
    ∃ d, Document.ofSource "pair" pairSource 1 = .ok d ∧ d.table = pairTable := by
  have hread : (Document.ofSource "pair" pairSource 1).map (·.table) = .ok pairTable := by
    decide +kernel
  exact map_eq_ok_iff.mp hread

/-- One of them alone. -/
def loneSource : String := "<d><messages><message id='0' name='A'/></messages></d>"

def loneTable : Table := ⟨[⟨0, "A", 138⟩]⟩

/-- A table of two slots is read back, and told from a table of one. -/
theorem dispatch_reads_back_sample :
    ∃ d d', Document.ofSource "pair" pairSource 1 = .ok d ∧
      Document.ofSource "lone" loneSource 2 = .ok d' ∧
      (lines (dispatch d.table).toList).length = 2 ∧
      List.Forall₂ IsRow [⟨0, "A", 138⟩, ⟨4, "BATTERY_STATUS_OF_ALL_CELLS_LAST", 203⟩]
        (lines (dispatch d.table).toList) ∧
      dispatch d.table ≠ dispatch d'.table := by
  have hlone : (Document.ofSource "lone" loneSource 2).map (·.table) = .ok loneTable := by
    decide +kernel
  obtain ⟨d, hd, htable⟩ := exists_pair
  obtain ⟨d', hd', htable'⟩ := map_eq_ok_iff.mp hlone
  have hentries : d.table.entries =
      [⟨0, "A", 138⟩, ⟨4, "BATTERY_STATUS_OF_ALL_CELLS_LAST", 203⟩] := by
    rw [htable]
    decide +kernel
  have hentries' : d'.table.entries = [⟨0, "A", 138⟩] := by
    rw [htable']
    decide +kernel
  obtain ⟨hfilled, -, -, -, hcount, hrows, hother⟩ := dispatch_reads_back hd
  obtain ⟨-, happart⟩ := hother _ _ _ d' hd' (by rw [hentries, hentries']; decide)
  rw [hentries] at hcount hrows hfilled happart
  rw [hentries'] at happart
  refine ⟨d, d', hd, hd', ?_, hrows (by decide), fun heq => ?_⟩
  · rw [hcount.mpr (by decide), ← hfilled]
    rfl
  · exact absurd ((happart (by decide)).mp heq) (by decide)

/-- A message whose name goes on, on a line of its own, as the row of another message. -/
def forgedSource : String :=
  "<d><messages><message id='0' name='A                                138&#10;" ++
    "  4 BATTERY_STATUS_OF_ALL_CELLS_LAST'/></messages></d>"

def forgedTable : Table :=
  ⟨[⟨0, "A                                138\n  4 BATTERY_STATUS_OF_ALL_CELLS_LAST", 203⟩]⟩

/-- A line feed in a name makes up a row: there are two lines for one message, and the listing is
that of the two messages that it looks like. -/
theorem dispatch_makes_up :
    ∃ d d', Document.ofSource "forged" forgedSource 1 = .ok d ∧
      Document.ofSource "pair" pairSource 1 = .ok d' ∧
      d.table.count = 1 ∧ (lines (dispatch d.table).toList).length = 2 ∧
      d.table.entries ≠ d'.table.entries ∧ dispatch d.table = dispatch d'.table := by
  have hforged : (Document.ofSource "forged" forgedSource 1).map (·.table) = .ok forgedTable := by
    decide +kernel
  obtain ⟨d, hd, htable⟩ := map_eq_ok_iff.mp hforged
  obtain ⟨d', hd', htable'⟩ := exists_pair
  refine ⟨d, d', hd, hd', ?_⟩
  rw [htable, htable']
  decide +kernel

end Dialect.Listing

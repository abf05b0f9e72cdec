import Dialect.Proofs.Markup.Flaw

/-!
# The lines of a document

Which lines the parser gives. An element carries the line of the angle bracket that opens it, and a
closing tag that does not match is reported on the line of the tag. A reference that stands for
nothing is reported on the line on which its run of text begins, or the blanks in front of its
attribute; that is the line of its ampersand exactly if no line ends between the two places.
`parse_lines` says all this, and `parse_line_of_blanks` is a source in which the lines differ.
-/

namespace Dialect.Markup

/-! ## Where elements begin -/

namespace Element

mutual

/-- The element and all elements in it, in the order in which they begin. -/
def all : Element → List Element
  | ⟨name, attributes, children, text, line⟩ =>
    ⟨name, attributes, children, text, line⟩ :: allOf children

def allOf : List Element → List Element
  | [] => []
  | e :: rest => e.all ++ allOf rest

end

/-- The first of all elements below is the element itself. -/
theorem all_eq_cons (e : Element) : e.all = e :: allOf e.children := by
  cases e
  rw [all]

/-- The element has the name of the tag, and the line of the place in front of it. -/
def OpenedBy (e : Element) (opening : List Char × Tag) : Prop :=
  e.name = opening.2.name ∧ e.line = lineBehind opening.1

end Element

mutual

/-- The tags that open an element and those inside it, in the order of the source, each with the
text in front of it. -/
def Written.openings (before : List Char) : Written → List (List Char × Tag)
  | .empty tag => [(before, tag)]
  | .paired tag content _ => (before, tag) :: content.openings (before ++ tag.text false)

def Content.openings (before : List Char) : Content → List (List Char × Tag)
  | .last _ => []
  | .inert run item rest => rest.openings (before ++ run.chars ++ item.text)
  | .child run e rest =>
    e.openings (before ++ run.chars) ++ rest.openings (before ++ run.chars ++ e.text)

end

def WrittenDocument.openings (d : WrittenDocument) : List (List Char × Tag) :=
  d.root.openings d.front

mutual

/-- The elements of a tree are those that the tags of the document open. -/
theorem Written.openedBy_of_build (e : Written) {before : List Char} {root : Element}
    (h : e.build before = .ok root) :
    List.Forall₂ Element.OpenedBy root.all (e.openings before) := by
  match e with
  | .empty tag =>
    obtain ⟨attributes, rfl⟩ := tag.exists_of_build h
    exact .cons ⟨rfl, rfl⟩ .nil
  | .paired tag content close =>
    obtain ⟨parent, hparent, h⟩ := bind_eq_ok_iff.mp h
    obtain ⟨inside, hinside, h⟩ := bind_eq_ok_iff.mp h
    obtain ⟨_, -, h⟩ := bind_eq_ok_iff.mp h
    obtain rfl := Except.ok.inj h
    obtain ⟨attributes, rfl⟩ := tag.exists_of_build hparent
    rw [Element.all_eq_cons]
    exact .cons ⟨rfl, rfl⟩ (content.openedBy_of_build hinside)

/-- The elements built of a content have been opened by its tags, in order. -/
theorem Content.openedBy_of_build (content : Content) {before : List Char}
    {inside : List Element × List Char} (h : content.build before = .ok inside) :
    List.Forall₂ Element.OpenedBy (Element.allOf inside.1) (content.openings before) := by
  -- on the content and, for a child, on the content of the child
  match content with
  | .last run =>
    obtain ⟨text, -, h⟩ := bind_eq_ok_iff.mp h
    obtain rfl := Except.ok.inj h
    exact .nil
  | .inert run item more =>
    obtain ⟨text, -, h⟩ := bind_eq_ok_iff.mp h
    obtain ⟨behind, hbehind, h⟩ := bind_eq_ok_iff.mp h
    obtain rfl := Except.ok.inj h
    have hmore := more.openedBy_of_build hbehind
    exact hmore
  | .child run e more =>
    obtain ⟨text, -, h⟩ := bind_eq_ok_iff.mp h
    obtain ⟨child, hchild, h⟩ := bind_eq_ok_iff.mp h
    obtain ⟨behind, hbehind, h⟩ := bind_eq_ok_iff.mp h
    obtain rfl := Except.ok.inj h
    exact List.rel_append (e.openedBy_of_build hchild) (more.openedBy_of_build hbehind)

end

/-- A tag begins with a bracket and its name. -/
theorem Tag.prefix_text (tag : Tag) (isEmpty : Bool) :
    "<".toList ++ tag.name.toList <+: tag.text isEmpty :=
  ⟨_, List.append_assoc ..⟩

mutual

/-- The tags that open elements stand in the text where they are said to. -/
theorem Written.prefix_of_mem_openings (e : Written) {before : List Char}
    {opening : List Char × Tag} (h : opening ∈ e.openings before) :
    opening.1 ++ ("<".toList ++ opening.2.name.toList) <+: before ++ e.text := by
  match e with
  | .empty tag =>
    obtain rfl := List.mem_singleton.mp h
    exact (List.prefix_append_right_inj _).mpr (tag.prefix_text true)
  | .paired tag content close =>
    rcases List.mem_cons.mp h with rfl | h
    · refine (List.prefix_append_right_inj _).mpr ((tag.prefix_text false).trans ?_)
      exact List.prefix_append ..
    · refine (content.prefix_of_mem_openings h).trans ⟨close.text, ?_⟩
      simp [Written.text]

/-- Each tag of a content stands where it says. -/
theorem Content.prefix_of_mem_openings (content : Content) {before : List Char}
    {opening : List Char × Tag} (h : opening ∈ content.openings before) :
    opening.1 ++ ("<".toList ++ opening.2.name.toList) <+: before ++ content.text := by
  match content with
  | .last run => exact absurd h List.not_mem_nil
  | .inert run item more => simpa [Content.text] using more.prefix_of_mem_openings h
  | .child run e more =>
    rcases List.mem_append.mp h with h | h
    · refine (e.prefix_of_mem_openings h).trans ⟨more.text, ?_⟩
      simp [Content.text]
    · simpa [Content.text] using more.prefix_of_mem_openings h

end

/-- Each tag of a document stands where it says. -/
theorem WrittenDocument.prefix_of_mem_openings {d : WrittenDocument} {opening : List Char × Tag}
    (h : opening ∈ d.openings) :
    opening.1 ++ ("<".toList ++ opening.2.name.toList) <+: d.text := by
  refine (d.root.prefix_of_mem_openings h).trans ⟨d.back, ?_⟩
  rw [text, List.append_assoc]

/-! ## Where faults are reported -/

/-- Two places are on one line exactly if there is no line feed between them. -/
theorem lineBehind_eq_iff {before s : List Char} :
    lineBehind before = lineBehind (before ++ s) ↔ '\n' ∉ s := by
  rw [lineBehind_append, ← List.count_eq_zero]
  omega

/-- A tag with a wrong name is reported on the line of its bracket. -/
theorem Piece.HasFlaw.of_mismatchedTag {p : Piece} {place : List Char} {opened closed : String}
    {line : Nat} (h : p.HasFlaw place (.mismatchedTag opened closed line)) :
    ∃ tag : ClosingTag, tag.name = closed ∧ place = p.front ++ "</".toList ∧ p.text = tag.text ∧
      line = lineBehind p.front := by
  cases h
  exact ⟨_, rfl, rfl, rfl, rfl⟩

/-- A reference that stands for nothing is reported on the line of its anchor, and may stand further
on. -/
theorem Piece.HasFlaw.of_unknownEntity {p : Piece} {place : List Char} {quoted : String}
    {line : Nat} (h : p.HasFlaw place (.unknownEntity quoted line)) :
    ∃ anchor lead inner rest, p = .raw anchor lead (inner ++ '&' :: rest) ∧
      place = anchor ++ (lead ++ inner) ∧ line = lineBehind anchor := by
  cases h with
  | reference h =>
    obtain ⟨rest, rfl, -⟩ := h
    exact ⟨_, _, _, rest, rfl, List.append_assoc .., rfl⟩

/-- **Which lines are given.** In the tree of a document the elements are those that its tags open,
and each carries the line of its tag. A closing tag that does not match is reported on the line of
the tag. An ampersand that begins no reference is reported on the line on which its run of text or
its attribute begins, with the blanks in front of it; that is the line of the ampersand exactly if
no line ends in between. -/
theorem parse_lines (source : String) :
    (parse source = .error .malformed ↔ ∀ d : WrittenDocument, d.text ≠ source.toList) ∧
      ∀ d : WrittenDocument, d.text = source.toList →
        (∀ root, parse source = .ok root → List.Forall₂ Element.OpenedBy root.all d.openings) ∧
        (∀ opening ∈ d.openings,
          opening.1 ++ ("<".toList ++ opening.2.name.toList) <+: source.toList) ∧
        (∀ opened closed line, parse source = .error (.mismatchedTag opened closed line) →
          ∃ before,
            IsForemost d.HasFlaw (before ++ "</".toList) (.mismatchedTag opened closed line) ∧
            before ++ ("</".toList ++ closed.toList) <+: source.toList ∧
            line = lineBehind before) ∧
        ∀ quoted line, parse source = .error (.unknownEntity quoted line) →
          ∃ anchor lead inner rest, Piece.raw anchor lead (inner ++ '&' :: rest) ∈ d.pieces ∧
            IsForemost d.HasFlaw (anchor ++ (lead ++ inner)) (.unknownEntity quoted line) ∧
            anchor ++ (lead ++ inner) ++ ['&'] <+: source.toList ∧ line = lineBehind anchor ∧
            (line = lineBehind (anchor ++ (lead ++ inner)) ↔ '\n' ∉ lead ++ inner) := by
  refine ⟨parse_eq_malformed_iff, fun d hd => ⟨fun root hroot => ?_, fun opening hopening => ?_,
    fun opened closed line h => ?_, fun quoted line h => ?_⟩⟩
  · rw [parse_eq_build hd] at hroot
    exact d.root.openedBy_of_build hroot
  · rw [← hd]
    exact WrittenDocument.prefix_of_mem_openings hopening
  · obtain ⟨place, ⟨p, hp, hflaw⟩, hfirst⟩ := (parse_eq_error_iff_foremost hd).mp h
    obtain ⟨tag, rfl, rfl, htext, hline⟩ := hflaw.of_mismatchedTag
    refine ⟨p.front, ⟨⟨p, hp, hflaw⟩, hfirst⟩, ?_, hline⟩
    -- the piece at fault stands in the source, and its text begins as the tag does
    have hstands := WrittenDocument.prefix_of_mem_pieces hp
    rw [hd, htext] at hstands
    refine .trans ⟨tag.gap ++ ">".toList, ?_⟩ hstands
    simp [ClosingTag.text]
  · obtain ⟨place, ⟨p, hp, hflaw⟩, hfirst⟩ := (parse_eq_error_iff_foremost hd).mp h
    obtain ⟨anchor, lead, inner, rest, rfl, rfl, rfl⟩ := hflaw.of_unknownEntity
    refine ⟨anchor, lead, inner, rest, hp, ⟨⟨_, hp, hflaw⟩, hfirst⟩, ?_, rfl, lineBehind_eq_iff⟩
    have hstands := WrittenDocument.prefix_of_mem_pieces hp
    rw [hd] at hstands
    refine .trans ⟨rest, ?_⟩ hstands
    simp [Piece.front, Piece.text]

/-- A tag with an attribute on its second line, in which a reference stands for nothing. -/
def brokenTagDocument : WrittenDocument where
  front := []
  root := .empty ⟨"a", [⟨['\n', ' '], "x", [], [], '\'', "&b;".toList, List.cons_ne_nil _ _,
    by decide, by decide, isGap_nil, isGap_nil, .inr rfl, by decide, by decide⟩], [], by decide,
    isGap_nil⟩
  back := []
  isProlog := isProlog_nil
  isMiscellany := .nil

/-- A value on another line than its tag begins on. -/
theorem text_brokenTagDocument : brokenTagDocument.text = "<a\n x='&b;'/>".toList := by decide

/-- Its reference is reported on the line on which the tag begins. -/
theorem parse_brokenTag : parse "<a\n x='&b;'/>" = .error (.unknownEntity "b" 1) := by
  have hpieces : brokenTagDocument.pieces =
      [.raw "<a".toList "\n x='".toList "&b;".toList] := rfl
  have hbad : BadReference ('&' :: ("b".toList ++ [';'])) [] "b" :=
    badReference_begin_iff.mpr (.unknown (by decide) rfl)
  refine (parse_eq_error_iff text_brokenTagDocument).mpr ?_
  rw [hpieces, firstFault_singleton_iff, Piece.fails_iff_foremost]
  refine ⟨_, .reference hbad, ?_⟩
  intro place' fault' hflaw
  obtain ⟨inner, _, _, rfl, -⟩ := hflaw.exists_eq
  simp [Piece.front]

/-- The only ampersand of the tag stands on its second line. -/
theorem lineBehind_of_brokenTag {before rest : List Char}
    (h : "<a\n x='&b;'/>".toList = before ++ '&' :: rest) : lineBehind before = 2 := by
  have hcount : 1 = (before ++ '&' :: rest).count '&' := h ▸ rfl
  have hbefore : '&' ∉ before := by
    rw [List.count_append, List.count_cons_self] at hcount
    exact List.count_eq_zero.mp (by omega)
  have hcut : cut? '&' "<a\n x='&b;'/>".toList = some (before, rest) :=
    cut?_eq_some_iff.mpr ⟨h, hbefore⟩
  have hsplit : cut? '&' "<a\n x='&b;'/>".toList = some ("<a\n x='".toList, "b;'/>".toList) := rfl
  obtain ⟨rfl, -⟩ := Prod.mk.inj (Option.some.inj (hcut.symm.trans hsplit))
  rfl

/-- The first flaw of the tag stands on its second line. -/
theorem parse_lines_sample :
    brokenTagDocument.text = "<a\n x='&b;'/>".toList ∧
      parse "<a\n x='&b;'/>" = .error (.unknownEntity "b" 1) ∧
      ∃ place, IsForemost brokenTagDocument.HasFlaw place (.unknownEntity "b" 1) ∧
        lineBehind place = 2 := by
  refine ⟨text_brokenTagDocument, parse_brokenTag, ?_⟩
  obtain ⟨anchor, lead, inner, _, -, hfirst, ⟨rest, hrest⟩, -⟩ :=
    ((parse_lines _).2 _ text_brokenTagDocument).2.2.2 "b" 1 parse_brokenTag
  have hsplit : "<a\n x='&b;'/>".toList = anchor ++ (lead ++ inner) ++ '&' :: rest := by
    rw [← hrest, List.append_assoc, List.singleton_append]
  exact ⟨_, hfirst, lineBehind_of_brokenTag hsplit⟩

/-- A reference that stands for nothing is reported on a line on which no ampersand stands. -/
theorem parse_line_of_blanks :
    parse "<a\n x='&b;'/>" = .error (.unknownEntity "b" 1) ∧
      ¬ ∃ before rest, "<a\n x='&b;'/>".toList = before ++ '&' :: rest ∧ lineBehind before = 1 := by
  refine ⟨parse_brokenTag, ?_⟩
  rintro ⟨before, rest, h, hline⟩
  rw [lineBehind_of_brokenTag h] at hline
  exact absurd hline (by decide)

end Dialect.Markup

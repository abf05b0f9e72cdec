import Dialect.Proofs.Markup.Builder
import Dialect.Proofs.Markup.Entity

/-!
# The first flaw of a document

A document is flawed where a closing tag has not the name of its opening tag, and at an ampersand
that begins no reference. Each flaw stands at a place, which is given by the text in front of it, and
places are compared by the lengths of these texts. `parse_first_flaw` says that the parser reports
the flaw whose place comes first.

In one text it is the expansion of references that finds the first flaw, for it goes on behind a
reference and no ampersand is passed over inside one (`expand_eq_error_iff`). Among the pieces of a
document it is the order in which they are built, which is that of their places (`Laid`).
-/

namespace Dialect.Markup

/-! ## What comes first -/

/-- Of all places where something is wrong this is the first, and it is `e` that is wrong there. -/
def IsForemost {ε : Type} (HasFlaw : List Char → ε → Prop) (place : List Char) (e : ε) : Prop :=
  HasFlaw place e ∧ ∀ place' e', HasFlaw place' e' → place.length ≤ place'.length

/-- At the first of the places where something is wrong, it is `e` that is wrong. -/
def Foremost {ε : Type} (HasFlaw : List Char → ε → Prop) (e : ε) : Prop :=
  ∃ place, IsForemost HasFlaw place e

section Foremost

variable {ε ε' : Type} {HasFlaw HasFlaw' : List Char → ε → Prop} {e : ε}

/-- If something is wrong, something is wrong first. -/
theorem exists_foremost_iff : (∃ e, Foremost HasFlaw e) ↔ ∃ place e, HasFlaw place e := by
  constructor
  · rintro ⟨e, place, h, -⟩
    exact ⟨place, e, h⟩
  · rintro ⟨place, e, h⟩
    induction hn : place.length using Nat.strong_induction_on generalizing place e with
    | _ n ih =>
      by_cases hfirst : ∀ place' e', HasFlaw place' e' → place.length ≤ place'.length
      · exact ⟨e, place, h, hfirst⟩
      · simp only [not_forall, Nat.not_le] at hfirst
        obtain ⟨place', e', h', hlt⟩ := hfirst
        exact ih place'.length (hn ▸ hlt) place' e' h' rfl

/-- What is wrong at the very beginning is wrong first. -/
theorem foremost_iff_of_nil (h : ∀ e', HasFlaw [] e' ↔ e' = e) {e' : ε} :
    Foremost HasFlaw e' ↔ e' = e := by
  have hbegin : HasFlaw [] e := (h e).mpr rfl
  constructor
  · rintro ⟨place, hplace, hfirst⟩
    obtain rfl := List.length_eq_zero_iff.mp (Nat.le_zero.mp (hfirst [] e hbegin))
    exact (h e').mp hplace
  · rintro rfl
    exact ⟨[], hbegin, fun _ _ _ => Nat.zero_le _⟩

/-- Putting a text in front of all places, and wording what is wrong at them anew, does not change
what comes first. -/
theorem foremost_shift_iff {Shifted : List Char → ε' → Prop} {front : List Char} {word : ε → ε'}
    (h : ∀ place e', Shifted place e' ↔
      ∃ inner e, HasFlaw inner e ∧ place = front ++ inner ∧ word e = e') {e' : ε'} :
    Foremost Shifted e' ↔ ∃ e, Foremost HasFlaw e ∧ word e = e' := by
  constructor
  · rintro ⟨_, hplace, hfirst⟩
    obtain ⟨inner, e, he, rfl, rfl⟩ := (h _ _).mp hplace
    refine ⟨e, ⟨inner, he, fun inner' e' he' => ?_⟩, rfl⟩
    have hle := hfirst (front ++ inner') (word e') ((h _ _).mpr ⟨inner', e', he', rfl, rfl⟩)
    simpa using hle
  · rintro ⟨e, ⟨inner, he, hfirst⟩, rfl⟩
    refine ⟨front ++ inner, (h _ _).mpr ⟨inner, e, he, rfl, rfl⟩, fun place' e' h' => ?_⟩
    obtain ⟨inner', e', he', rfl, rfl⟩ := (h _ _).mp h'
    simpa using hfirst inner' e' he'

/-- Putting a text in front of all places does not change what comes first. -/
theorem foremost_behind_iff {front : List Char}
    (h : ∀ place e, HasFlaw' place e ↔ ∃ inner, place = front ++ inner ∧ HasFlaw inner e) :
    Foremost HasFlaw' e ↔ Foremost HasFlaw e := by
  have hshift : ∀ place e', HasFlaw' place e' ↔
      ∃ inner e, HasFlaw inner e ∧ place = front ++ inner ∧ id e = e' := fun place e' => by
    rw [h]
    constructor
    · rintro ⟨inner, hplace, he⟩
      exact ⟨inner, e', he, hplace, rfl⟩
    · rintro ⟨inner, _, he, hplace, rfl⟩
      exact ⟨inner, hplace, he⟩
  rw [foremost_shift_iff hshift]
  simp

/-- What is wrong further on counts only if nothing is wrong before. -/
theorem foremost_or_iff
    (hlt : ∀ place e place' e', HasFlaw place e → HasFlaw' place' e' → place.length < place'.length) :
    Foremost (fun place e => HasFlaw place e ∨ HasFlaw' place e) e ↔
      Foremost HasFlaw e ∨ (∀ e', ¬ Foremost HasFlaw e') ∧ Foremost HasFlaw' e := by
  constructor
  · rintro ⟨place, h, hfirst⟩
    rcases h with h | h
    · exact .inl ⟨place, h, fun place' e' h' => hfirst place' e' (.inl h')⟩
    · refine .inr ⟨?_, place, h, fun place' e' h' => hfirst place' e' (.inr h')⟩
      -- a flaw of the first kind would be in front of this one
      rintro e' ⟨place', h', -⟩
      exact absurd (hfirst place' e' (.inl h')) (Nat.not_le.mpr (hlt place' e' place e h' h))
  · rintro (⟨place, h, hfirst⟩ | ⟨hnone, place, h, hfirst⟩)
    · refine ⟨place, .inl h, fun place' e' h' => ?_⟩
      rcases h' with h' | h'
      · exact hfirst place' e' h'
      · exact Nat.le_of_lt (hlt place e place' e' h h')
    · refine ⟨place, .inr h, fun place' e' h' => ?_⟩
      -- a flaw of the first kind has one that comes first
      rcases h' with h' | h'
      · obtain ⟨e'', he''⟩ := exists_foremost_iff.mpr ⟨place', e', h'⟩
        exact absurd he'' (hnone e'')
      · exact hfirst place' e' h'

end Foremost

/-! ## References -/

/-- The ampersand in front of `rest` begins no reference, which is reported by quoting `quoted`. -/
inductive Unresolved : List Char → String → Prop
  | endless {rest : List Char} (h : ';' ∉ rest) :
      Unresolved rest (String.ofList (rest.take quotedLength))
  | unknown {entity more : List Char} (hend : ';' ∉ entity) (h : referenced? entity = none) :
      Unresolved (entity ++ ';' :: more) (String.ofList entity)

/-- In the text, the ampersand behind `front` begins no reference. -/
def BadReference (s front : List Char) (quoted : String) : Prop :=
  ∃ rest, s = front ++ '&' :: rest ∧ Unresolved rest quoted

section References

variable {s entity rest front : List Char} {c : Char} {quoted : String}

/-- Without an end, a reference is reported by the characters in front. -/
theorem unresolved_iff_of_notMem (h : ';' ∉ rest) :
    Unresolved rest quoted ↔ quoted = String.ofList (rest.take quotedLength) := by
  constructor
  · rintro (_ | _)
    · rfl
    · exact absurd (List.mem_append_right _ List.mem_cons_self) h
  · rintro rfl
    exact .endless h

/-- With an end, a reference is reported as a whole, if it stands for nothing. -/
theorem unresolved_iff (hend : ';' ∉ entity) :
    Unresolved (entity ++ ';' :: rest) quoted ↔
      referenced? entity = none ∧ quoted = String.ofList entity := by
  constructor
  · intro h
    generalize hs : entity ++ ';' :: rest = s at h
    cases h with
    | endless h =>
      rw [← hs] at h
      exact absurd (List.mem_append_right _ List.mem_cons_self) h
    | @unknown entity' more hend' h =>
      -- Both are what stands in front of the first semicolon.
      have hcut : cut? ';' (entity' ++ ';' :: more) = some (entity', more) :=
        cut?_eq_some_iff.mpr ⟨rfl, hend'⟩
      rw [← hs, cut?_eq_some_iff.mpr ⟨rfl, hend⟩] at hcut
      obtain ⟨rfl, -⟩ := Prod.mk.inj (Option.some.inj hcut)
      exact ⟨h, rfl⟩
  · rintro ⟨h, rfl⟩
    exact .unknown hend h

/-- Nothing is wrong with the references of an empty text. -/
theorem not_badReference_nil : ¬ BadReference [] front quoted := by
  rintro ⟨rest, hs, -⟩
  simp at hs

/-- A reference is wrong at the front, or somewhere in the rest. -/
theorem badReference_cons_iff :
    BadReference (c :: s) front quoted ↔ (front = [] ∧ c = '&' ∧ Unresolved s quoted) ∨
      ∃ inner, front = c :: inner ∧ BadReference s inner quoted := by
  constructor
  · rintro ⟨rest, hs, h⟩
    cases front with
    | nil =>
      obtain ⟨rfl, rfl⟩ := List.cons.inj hs
      exact .inl ⟨rfl, rfl, h⟩
    | cons x front =>
      obtain ⟨rfl, rfl⟩ := List.cons.inj hs
      exact .inr ⟨front, rfl, rest, rfl, h⟩
  · rintro (⟨rfl, rfl, h⟩ | ⟨inner, rfl, rest, rfl, h⟩)
    · exact ⟨s, rfl, h⟩
    · exact ⟨rest, rfl, h⟩

/-- At the front of a text, only the ampersand there can be wrong. -/
theorem badReference_begin_iff :
    BadReference ('&' :: s) [] quoted ↔ Unresolved s quoted := by
  simp [badReference_cons_iff]

/-- No ampersand stands in a text that has none. -/
theorem badReference_append_iff {plain : List Char} (hplain : '&' ∉ plain) :
    BadReference (plain ++ s) front quoted ↔
      ∃ inner, front = plain ++ inner ∧ BadReference s inner quoted := by
  induction plain generalizing front with
  | nil => simp
  | cons x plain ih =>
    obtain ⟨hx, hplain⟩ := not_or.mp (mt List.mem_cons.mpr hplain)
    rw [List.cons_append, badReference_cons_iff, or_iff_right (fun h => hx h.2.1.symm)]
    simp only [ih hplain]
    constructor
    · rintro ⟨_, rfl, inner, rfl, h⟩
      exact ⟨inner, rfl, h⟩
    · rintro ⟨inner, rfl, h⟩
      exact ⟨_, rfl, inner, rfl, h⟩

/-- An ampersand that begins a reference is not at fault, and there is none inside the reference. -/
theorem badReference_reference_iff {x : Char} (hend : ';' ∉ entity)
    (hx : referenced? entity = some x) :
    BadReference ('&' :: (entity ++ ';' :: rest)) front quoted ↔
      ∃ inner, front = '&' :: (entity ++ [';']) ++ inner ∧ BadReference rest inner quoted := by
  have hresolved : ¬ Unresolved (entity ++ ';' :: rest) quoted := fun h => by
    rw [unresolved_iff hend, hx] at h
    simp at h
  -- what denotes a character has no ampersand in it, so no other reference begins there
  have hplain : '&' ∉ entity ++ [';'] := fun hmem => by
    rcases List.mem_append.mp hmem with hmem | hmem
    · have hdenotes : Denotes acceptedSigns entity x := referenced?_eq_some_iff.mp hx
      exact hdenotes.notMem (by decide) hmem
    · exact absurd hmem (by decide)
  rw [badReference_cons_iff, or_iff_right fun h => hresolved h.2.2, ← List.singleton_append,
    ← List.append_assoc entity]
  simp only [badReference_append_iff hplain]
  constructor
  · rintro ⟨_, rfl, inner, rfl, h⟩
    exact ⟨inner, rfl, h⟩
  · rintro ⟨inner, rfl, h⟩
    exact ⟨_, rfl, inner, rfl, h⟩

end References

/-- Expanding a text fails at the first ampersand in it that begins no reference. -/
theorem expand_eq_error_iff {s : List Char} {quoted : String} :
    expand s = .error quoted ↔ Foremost (BadReference s) quoted := by
  -- as the text is expanded: the flaw is at the beginning, or it is one of the rest moved back
  fun_induction expand s with
  | case1 =>
    refine iff_of_false (by simp) ?_
    rintro ⟨_, h, -⟩
    exact not_badReference_nil h
  | case2 rest hcut =>
    -- a reference without end
    have hend : ';' ∉ rest := cut?_eq_none_iff.mp hcut
    rw [foremost_iff_of_nil fun q => badReference_begin_iff.trans (unresolved_iff_of_notMem hend),
      Except.error.injEq, eq_comm]
  | case3 rest entity after hcut _ hx =>
    obtain ⟨rfl, hend⟩ := cut?_eq_some hcut
    -- a reference to nothing
    have hbegin : ∀ q, BadReference ('&' :: (entity ++ ';' :: after)) [] q ↔
        q = String.ofList entity := fun q => by
      rw [badReference_begin_iff, unresolved_iff hend]
      exact and_iff_right hx
    rw [foremost_iff_of_nil hbegin, Except.error.injEq, eq_comm]
  | case4 rest entity after hcut _ x hx ih =>
    obtain ⟨rfl, hend⟩ := cut?_eq_some hcut
    -- a reference that stands for a character is no flaw, and none begins inside it
    have hbehind : ∀ place q, BadReference ('&' :: (entity ++ ';' :: after)) place q ↔
        ∃ inner, place = '&' :: (entity ++ [';']) ++ inner ∧ BadReference after inner q :=
      fun _ _ => badReference_reference_iff hend hx
    rw [foremost_behind_iff hbehind, ← ih]
    exact map_eq_error_iff
  | case5 c rest hc ih =>
    -- nor does one begin at another character
    have hbehind : ∀ place q, BadReference ([c] ++ rest) place q ↔
        ∃ inner, place = [c] ++ inner ∧ BadReference rest inner q :=
      fun _ _ => badReference_append_iff (by simpa using Ne.symm hc)
    rw [← List.singleton_append, foremost_behind_iff hbehind, ← ih]
    exact map_eq_error_iff

/-! ## Pieces -/

namespace Piece

/-- What stands in front of the piece. -/
def front : Piece → List Char
  | .raw anchor lead _ => anchor ++ lead
  | .closing front _ _ => front

def text : Piece → List Char
  | .raw _ _ s => s
  | .closing _ _ tag => tag.text

/-- At a place in the piece something is wrong: an ampersand that begins no reference, or the name
in a closing tag that is not that of the element. The line is the one that is reported. -/
inductive HasFlaw : Piece → List Char → Fault → Prop
  | reference {anchor lead s inner : List Char} {quoted : String}
      (h : BadReference s inner quoted) :
      HasFlaw (.raw anchor lead s) (anchor ++ lead ++ inner)
        (.unknownEntity quoted (lineBehind anchor))
  | mismatch {front : List Char} {opened : String} {tag : ClosingTag} (h : opened ≠ tag.name) :
      HasFlaw (.closing front opened tag) (front ++ "</".toList)
        (.mismatchedTag opened tag.name (lineBehind front))

/-- What is wrong with a run or a value is a reference in it, reported on the line of its anchor. -/
theorem hasFlaw_raw_iff {anchor lead s place : List Char} {fault : Fault} :
    (raw anchor lead s).HasFlaw place fault ↔
      ∃ inner quoted, BadReference s inner quoted ∧ place = anchor ++ lead ++ inner ∧
        Fault.unknownEntity quoted (lineBehind anchor) = fault := by
  constructor
  · intro h
    cases h with
    | reference h => exact ⟨_, _, h, rfl, rfl⟩
  · rintro ⟨inner, quoted, h, rfl, rfl⟩
    exact .reference h

/-- What is wrong with a closing tag is its name. -/
theorem hasFlaw_closing_iff {front place : List Char} {opened : String} {tag : ClosingTag}
    {fault : Fault} :
    (closing front opened tag).HasFlaw place fault ↔
      opened ≠ tag.name ∧ place = front ++ "</".toList ∧
        fault = .mismatchedTag opened tag.name (lineBehind front) := by
  constructor
  · intro h
    cases h with
    | mismatch h => exact ⟨h, rfl, rfl⟩
  · rintro ⟨h, rfl, rfl⟩
    exact .mismatch h

/-- A piece fails with the first thing that is wrong in it. -/
theorem fails_iff_foremost {p : Piece} {fault : Fault} :
    p.Fails fault ↔ Foremost p.HasFlaw fault := by
  cases p with
  | raw anchor lead s =>
    rw [foremost_shift_iff fun _ _ => hasFlaw_raw_iff, Fails, expandAt, mapError_eq_error_iff]
    simp only [expand_eq_error_iff]
  | closing front opened tag =>
    simp only [Fails, ClosingTag.check, Foremost, IsForemost, hasFlaw_closing_iff]
    by_cases hname : opened = tag.name
    · simp [hname]
    · simp only [hname, if_false, Except.error.injEq, ne_eq, not_false_eq_true, true_and]
      constructor
      · rintro rfl
        exact ⟨_, ⟨rfl, rfl⟩, fun place' e' h' => h'.1 ▸ Nat.le_refl _⟩
      · rintro ⟨_, ⟨-, rfl⟩, -⟩
        rfl

/-- A flaw of a piece stands in front of some character of the piece. -/
theorem HasFlaw.exists_eq {p : Piece} {place : List Char} {fault : Fault}
    (h : p.HasFlaw place fault) :
    ∃ inner x rest, place = p.front ++ inner ∧ p.text = inner ++ x :: rest := by
  cases h with
  | reference h =>
    obtain ⟨rest, rfl, -⟩ := h
    exact ⟨_, '&', rest, rfl, rfl⟩
  | @mismatch front opened tag _ =>
    obtain ⟨x, more, hname, -⟩ := tag.isName.exists_cons
    refine ⟨"</".toList, x, more ++ (tag.gap ++ ">".toList), rfl, ?_⟩
    rw [text, ClosingTag.text, hname]
    rfl

end Piece

/-- In a text with `before` in front of it stand the pieces, one behind the other. -/
inductive Laid : List Char → List Char → List Piece → Prop
  | nil {before s : List Char} : Laid before s []
  | cons {before skipped rest : List Char} {p : Piece} {ps : List Piece}
      (hfront : p.front = before ++ skipped) (h : Laid (p.front ++ p.text) rest ps) :
      Laid before (skipped ++ (p.text ++ rest)) (p :: ps)

namespace Laid

variable {before s more place : List Char} {ps qs : List Piece} {p : Piece} {fault : Fault}

/-- Pieces that stand in the second of two parts stand in both together. -/
theorem behind (h : Laid (before ++ s) more qs) : Laid before (s ++ more) qs := by
  cases h with
  | nil => exact .nil
  | @cons _ skipped rest p ps hfront h =>
    rw [← List.append_assoc s]
    exact .cons (by rw [hfront, List.append_assoc]) h

/-- Pieces of one part and of the next stand one behind the other. -/
theorem append (h : Laid before s ps) (h' : Laid (before ++ s) more qs) :
    Laid before (s ++ more) (ps ++ qs) := by
  induction h with
  | nil => exact h'.behind
  | @cons before skipped rest p ps hfront h ih =>
    rw [List.append_assoc, List.append_assoc]
    refine .cons hfront (ih ?_)
    rw [hfront]
    simpa using h'

/-- A text begins with each of its pieces and what is in front of it. -/
theorem prefix_of_mem (h : Laid before s ps) (hp : p ∈ ps) : p.front ++ p.text <+: before ++ s := by
  induction h with
  | nil => exact absurd hp List.not_mem_nil
  | @cons before skipped rest q qs hfront h ih =>
    have heq : before ++ (skipped ++ (q.text ++ rest)) = q.front ++ q.text ++ rest := by
      rw [hfront]
      simp
    rw [heq]
    rcases List.mem_cons.mp hp with rfl | hp
    · exact List.prefix_append _ _
    · exact ih hp

/-- No piece begins in front of the text that it stands in. -/
theorem length_le_of_mem (h : Laid before s ps) (hp : p ∈ ps) :
    before.length ≤ p.front.length := by
  induction h with
  | nil => exact absurd hp List.not_mem_nil
  | @cons before skipped rest q qs hfront h ih =>
    have hle : before.length ≤ q.front.length := by simp [hfront]
    rcases List.mem_cons.mp hp with rfl | hp
    · exact hle
    · have hp := ih hp
      rw [List.length_append] at hp
      omega

/-- The first piece that fails, fails with what is wrong first. -/
theorem firstFault_iff_foremost (h : Laid before s ps) :
    FirstFault Piece.Fails ps fault ↔
      Foremost (fun place fault => ∃ p ∈ ps, p.HasFlaw place fault) fault := by
  induction h with
  | nil => simp [not_firstFault_nil, Foremost, IsForemost]
  | @cons before skipped rest p ps hfront h ih =>
    rw [firstFault_cons_iff, ih]
    simp only [Piece.fails_iff_foremost, List.exists_mem_cons_iff]
    -- flaws of later pieces are behind those of the first, as the pieces stand one behind the other
    refine (foremost_or_iff fun place fault place' fault' hflaw hflaw' => ?_).symm
    obtain ⟨inner, x, rest, rfl, htext⟩ := hflaw.exists_eq
    obtain ⟨q, hq, hflaw'⟩ := hflaw'
    obtain ⟨inner', _, _, rfl, -⟩ := hflaw'.exists_eq
    have hle := h.length_le_of_mem hq
    simp only [htext, List.length_append, List.length_cons] at hle ⊢
    omega

end Laid

/-! ## Documents -/

/-- A piece that begins the text stands in it. -/
theorem Laid.begin (p : Piece) (rest : List Char) : Laid p.front (p.text ++ rest) [p] :=
  .cons (List.append_nil p.front).symm .nil

/-- Values stand in their attributes, in order. -/
theorem WrittenAttribute.laid (before : List Char) (as : List WrittenAttribute) :
    Laid before (as.flatMap text) (pieces before as) := by
  induction as generalizing before with
  | nil => exact .nil
  | cons a as ih =>
    have hvalue : Laid (before ++ a.front) (a.value ++ [a.quote])
        [.raw before a.front a.value] := .begin (.raw before a.front _) _
    exact hvalue.behind.append (ih _)

/-- The pieces of a tag stand in the tag, in order. -/
theorem Tag.laid (before : List Char) (tag : Tag) (isEmpty : Bool) :
    Laid before (tag.text isEmpty) (tag.pieces before) := by
  have h := (WrittenAttribute.laid (before ++ ("<".toList ++ tag.name.toList))
    tag.attributes).append (.nil (s := tag.gap ++ (tagEnd isEmpty).toList))
  rw [List.append_nil] at h
  exact h.behind

/-- A run is the one piece in it. -/
theorem Run.laid (before : List Char) (run : Run) : Laid before run.chars [run.piece before] := by
  have h : Laid (before ++ []) (run.chars ++ []) [run.piece before] := .begin (run.piece before) []
  simpa using h

mutual

/-- The pieces of an element are parts of its text, in their order. -/
theorem Written.laid (e : Written) (before : List Char) :
    Laid before e.text (e.pieces before) := by
  match e with
  | .empty tag => exact tag.laid before true
  | .paired tag content close =>
    have hclose : Laid (before ++ tag.text false ++ content.text) (close.text ++ [])
        [.closing (before ++ tag.text false ++ content.text) tag.name close] :=
      .begin (.closing _ _ close) []
    rw [List.append_nil] at hclose
    exact (tag.laid before false).append ((content.laid _).append hclose)

/-- The pieces of a content stand in it, in order. -/
theorem Content.laid (content : Content) (before : List Char) :
    Laid before content.text (content.pieces before) := by
  match content with
  | .last run => exact run.laid before
  | .inert run item more =>
    exact (run.laid before).append (more.laid _).behind
  | .child run e more =>
    exact (run.laid before).append ((e.laid _).append (more.laid _))

end

namespace WrittenDocument

/-- At a place in the document something is wrong. -/
def HasFlaw (d : WrittenDocument) (place : List Char) (fault : Fault) : Prop :=
  ∃ p ∈ d.pieces, p.HasFlaw place fault

/-- The pieces of a document stand in its text, in order. -/
theorem laid (d : WrittenDocument) : Laid [] d.text d.pieces := by
  have h : Laid ([] ++ d.front) (d.root.text ++ d.back) (d.pieces ++ []) :=
    (d.root.laid d.front).append .nil
  rw [List.append_nil] at h
  exact h.behind

/-- Every piece of a document stands in its text where it says. -/
theorem prefix_of_mem_pieces {d : WrittenDocument} {p : Piece} (hp : p ∈ d.pieces) :
    p.front ++ p.text <+: d.text := d.laid.prefix_of_mem hp

end WrittenDocument

/-- The text of a document fails to be parsed for what is wrong first. -/
theorem parse_eq_error_iff_foremost {source : String} {d : WrittenDocument} {fault : Fault}
    (h : d.text = source.toList) : parse source = .error fault ↔ Foremost d.HasFlaw fault :=
  (parse_eq_error_iff h).trans d.laid.firstFault_iff_foremost

/-- **The first flaw is the one reported.** A source is malformed if it is the text of no document.
If it is the text of a document, then the pieces of the document stand in the source, the parser
fails exactly if something is wrong in one of them, and it reports what is wrong at the first place
of all. -/
theorem parse_first_flaw (source : String) :
    (parse source = .error .malformed ↔ ∀ d : WrittenDocument, d.text ≠ source.toList) ∧
      ∀ d : WrittenDocument, d.text = source.toList →
        (∀ p ∈ d.pieces, p.front ++ p.text <+: source.toList) ∧
        ((∃ fault, parse source = .error fault) ↔ ∃ place fault, d.HasFlaw place fault) ∧
        ∀ fault, parse source = .error fault ↔ Foremost d.HasFlaw fault := by
  refine ⟨parse_eq_malformed_iff, fun d hd => ?_⟩
  have hfirst : ∀ fault, parse source = .error fault ↔ Foremost d.HasFlaw fault := fun _ =>
    parse_eq_error_iff_foremost hd
  refine ⟨fun p hp => hd ▸ WrittenDocument.prefix_of_mem_pieces hp, ?_, hfirst⟩
  rw [← exists_foremost_iff]
  exact exists_congr hfirst

/-- An element that is closed under another name, with a reference in it that stands for nothing. -/
def flawedDocument : WrittenDocument where
  front := []
  root := .paired ⟨"p", [], [], by decide, isGap_nil⟩ (.last ⟨"&q;".toList, by decide⟩)
    ⟨"r", [], by decide, isGap_nil⟩
  back := []
  isProlog := isProlog_nil
  isMiscellany := .nil

/-- Of an unknown reference and a closing tag behind it the reference is reported. -/
theorem parse_first_flaw_sample :
    flawedDocument.text = "<p>&q;</r>".toList ∧
      parse "<p>&q;</r>" = .error (.unknownEntity "q" 1) := by
  have htext : flawedDocument.text = "<p>&q;</r>".toList := by decide
  have hpieces : flawedDocument.pieces =
      [.raw "<p>".toList [] "&q;".toList,
        .closing "<p>&q;".toList "p" ⟨"r", [], by decide, isGap_nil⟩] := rfl
  have hbad : BadReference ('&' :: ("q".toList ++ [';'])) [] "q" :=
    badReference_begin_iff.mpr (.unknown (by decide) rfl)
  refine ⟨htext, (((parse_first_flaw _).2 _ htext).2.2 _).mpr ⟨"<p>".toList, ?_, ?_⟩⟩
  · rw [WrittenDocument.HasFlaw, hpieces]
    exact ⟨_, List.mem_cons_self, .reference hbad⟩
  · rintro place' fault' ⟨p, hp, hflaw⟩
    obtain ⟨inner, _, _, rfl, -⟩ := hflaw.exists_eq
    rw [hpieces] at hp
    simp only [List.mem_cons, List.not_mem_nil, or_false] at hp
    rcases hp with rfl | rfl
    · simp [Piece.front]
    · simp [Piece.front]

end Dialect.Markup

import Dialect.Markup.Cursor

/-!
# Tokens

The lexical items of a document: tags, text runs, CDATA sections, and comments and processing
instructions, which carry nothing. A tag is read whole, attributes included, with its references
still unexpanded. `Token.next?` reads one token, `tokens?` all of a document: what may stand before
the root element, the root element down to the tag that closes it, and what may stand behind it.
-/

namespace Dialect.Markup

/-- An attribute as it stands in a tag. Its line is that of the blanks in front of it. -/
structure RawAttribute where
  line : Nat
  name : String
  value : List Char
  deriving DecidableEq, Repr

/-- A lexical item of a document. -/
inductive Token where
  /-- An opening tag; `isEmpty` when the tag is its own end. -/
  | opening (line : Nat) (name : String) (attributes : List RawAttribute) (isEmpty : Bool)
  | closing (line : Nat) (name : String)
  | text (line : Nat) (run : List Char)
  | cdata (body : List Char)
  /-- A comment or a processing instruction. -/
  | ignored
  deriving DecidableEq, Repr

/-! ## Characters and names -/

/-- The blanks of the markup itself: space, tab, carriage return and line feed. -/
def isSpace (c : Char) : Bool := c == ' ' || c == '\t' || c == '\r' || c == '\n'

/-- A character that may begin a name. -/
def isNameStart (c : Char) : Bool := c.isAlpha || c == '_' || c == ':'

/-- A character that may continue a name. -/
def isNameChar (c : Char) : Bool := c.isAlphanum || c == '_' || c == ':' || c == '-' || c == '.'

namespace Cursor

/-- Passes over any number of blanks. -/
def spaces (c : Cursor) : Cursor := (c.takeWhile isSpace).2

/-- Passes over one blank or more. -/
def spaces? (c : Cursor) : Option Cursor :=
  match c.takeWhile isSpace with
  | ([], _) => none
  | (_ :: _, d) => some d

/-- Passes over a name. -/
def name? (c : Cursor) : Option (String × Cursor) :=
  match c.rest with
  | [] => none
  | x :: _ =>
    if isNameStart x then
      let (name, d) := c.takeWhile isNameChar
      some (String.ofList name, d)
    else none

/-- Passes over a quoted value, whose characters are neither `<` nor the quote. -/
def quoted? (quote : Char) (c : Cursor) : Option (List Char × Cursor) := do
  let d ← c.literal? quote.toString
  let (value, e) := d.takeWhile fun x => x != quote && x != '<'
  return (value, ← e.literal? quote.toString)

/-- Passes over an attribute and the blanks in front of it. -/
def attribute? (c : Cursor) : Option (RawAttribute × Cursor) := do
  let d ← c.spaces?
  let (name, d) ← d.name?
  let d ← d.spaces.literal? "="
  let (value, d) ← (d.spaces.quoted? '"').or (d.spaces.quoted? '\'')
  return (⟨c.line, name, value⟩, d)

/-- Passes over a comment. -/
def comment? (c : Cursor) : Option Cursor := (c.enclosed? "<!--" "-->").map (·.2)

/-- Passes over a processing instruction. -/
def instruction? (c : Cursor) : Option Cursor := (c.enclosed? "<?" "?>").map (·.2)

/-- Passes over a document type declaration. -/
def doctype? (c : Cursor) : Option Cursor := (c.enclosed? "<!DOCTYPE" ">").map (·.2)

/-! ## What the readers pass over -/

/-- Blanks that may be there are passed over. -/
theorem spaces_passes (c : Cursor) : ∃ used, c.Passes used c.spaces :=
  ⟨_, takeWhile_passes isSpace c⟩

/-- Blanks that have to be there are passed over, at least one. -/
theorem spaces?_passes {c d : Cursor} (h : c.spaces? = some d) :
    ∃ used, used ≠ [] ∧ c.Passes used d := by
  have hp := takeWhile_passes isSpace c
  unfold spaces? at h
  split at h
  · simp at h
  · rename_i x xs e he
    obtain rfl := Option.some.inj h
    rw [he] at hp
    exact ⟨_, by simp, hp⟩

/-- What a name can begin with can also stand inside it. -/
theorem isNameChar_of_isNameStart {x : Char} (h : isNameStart x) : isNameChar x := by
  simp only [isNameStart, Bool.or_eq_true] at h
  rcases h with (h | h) | h <;> simp [isNameChar, Char.isAlphanum, h]

/-- A name that is read is passed over, and no name is empty. -/
theorem name?_passes {c d : Cursor} {name : String} (h : c.name? = some (name, d)) :
    ∃ used, used ≠ [] ∧ c.Passes used d := by
  have hp := takeWhile_passes isNameChar c
  unfold name? at h
  split at h
  · simp at h
  · rename_i x xs hr
    split at h
    · rename_i hx
      simp only [Option.some.injEq, Prod.mk.injEq] at h
      obtain ⟨-, rfl⟩ := h
      refine ⟨_, ?_, hp⟩
      simp [takeWhile, hr, isNameChar_of_isNameStart hx]
    · simp at h

/-- A value is passed over with its quotes. -/
theorem quoted?_passes {quote : Char} {c d : Cursor} {value : List Char}
    (h : c.quoted? quote = some (value, d)) : ∃ used, used ≠ [] ∧ c.Passes used d := by
  simp only [quoted?, Option.bind_eq_bind, Option.pure_def, Option.bind_eq_some_iff,
    Option.some.injEq, Prod.mk.injEq] at h
  obtain ⟨e, he, f, hf, -, rfl⟩ := h
  exact ⟨_, by simp [Char.toString],
    ((literal?_passes he).trans (takeWhile_passes _ e)).trans (literal?_passes hf)⟩

/-- An attribute is passed over with the blanks in front of it. -/
theorem attribute?_passes {c d : Cursor} {a : RawAttribute} (h : c.attribute? = some (a, d)) :
    ∃ used, used ≠ [] ∧ c.Passes used d := by
  simp only [attribute?, Option.bind_eq_bind, Option.pure_def, Option.bind_eq_some_iff,
    Option.some.injEq, Prod.mk.injEq, Prod.exists] at h
  obtain ⟨d₁, h₁, name, d₂, h₂, d₃, h₃, value, d₄, h₄, -, rfl⟩ := h
  obtain ⟨u₁, hu₁, p₁⟩ := spaces?_passes h₁
  obtain ⟨u₂, -, p₂⟩ := name?_passes h₂
  obtain ⟨u₃, p₃⟩ := spaces_passes d₂
  have p₄ := literal?_passes h₃
  obtain ⟨u₅, p₅⟩ := spaces_passes d₃
  obtain ⟨u₆, -, p₆⟩ : ∃ used, used ≠ [] ∧ d₃.spaces.Passes used d₄ := by
    rw [Option.or_eq_some_iff] at h₄
    rcases h₄ with h₄ | ⟨-, h₄⟩ <;> exact quoted?_passes h₄
  exact ⟨_, by simp [hu₁], ((((p₁.trans p₂).trans p₃).trans p₄).trans p₅).trans p₆⟩

/-- What is enclosed is passed over with its ends, and not empty if its opener is not. -/
theorem enclosed?_map_passes {opener closer : String} {c d : Cursor}
    (h : (c.enclosed? opener closer).map (·.2) = some d) (hne : opener.toList ≠ []) :
    ∃ used, used ≠ [] ∧ c.Passes used d := by
  obtain ⟨⟨body, e⟩, he, rfl⟩ := Option.map_eq_some_iff.1 h
  exact ⟨_, by simp [hne], enclosed?_passes he⟩

/-- A comment that is read is passed over. -/
theorem comment?_passes {c d : Cursor} (h : c.comment? = some d) :
    ∃ used, used ≠ [] ∧ c.Passes used d := enclosed?_map_passes h (by decide)

/-- A processing instruction that is read is passed over. -/
theorem instruction?_passes {c d : Cursor} (h : c.instruction? = some d) :
    ∃ used, used ≠ [] ∧ c.Passes used d := enclosed?_map_passes h (by decide)

/-! ## Repetition -/

/-- Passes over all attributes of a tag. -/
def attributes (c : Cursor) : List RawAttribute × Cursor :=
  match h : c.attribute? with
  | none => ([], c)
  | some (a, d) =>
    have : d.rest.length < c.rest.length :=
      have ⟨_, hne, hp⟩ := attribute?_passes h
      hp.length_lt hne
    let (as, e) := d.attributes
    (a :: as, e)
termination_by c.rest.length

/-- Passes over one comment, processing instruction or run of blanks. -/
def miscellany? (c : Cursor) : Option Cursor := c.comment?.or (c.instruction?.or c.spaces?)

/-- Whatever may stand outside the root is passed over when it is read. -/
theorem miscellany?_passes {c d : Cursor} (h : c.miscellany? = some d) :
    ∃ used, used ≠ [] ∧ c.Passes used d := by
  simp only [miscellany?, Option.or_eq_some_iff] at h
  rcases h with h | ⟨-, h | ⟨-, h⟩⟩
  · exact comment?_passes h
  · exact instruction?_passes h
  · exact spaces?_passes h

/-- Passes over everything outside the root element that says nothing. -/
def miscellany (c : Cursor) : Cursor :=
  match h : c.miscellany? with
  | none => c
  | some d =>
    have : d.rest.length < c.rest.length :=
      have ⟨_, hne, hp⟩ := miscellany?_passes h
      hp.length_lt hne
    d.miscellany
termination_by c.rest.length

/-- Passes over what may stand before the root element: a byte order mark, comments, instructions
and blanks, and at most one document type declaration among them. -/
def prolog (c : Cursor) : Cursor :=
  let c := (c.literal? "\uFEFF").getD c
  let c := c.miscellany
  match c.doctype? with
  | none => c
  | some d => d.miscellany

/-- All the attributes of a tag are passed over, be there none. -/
theorem attributes_passes (c : Cursor) : ∃ used, c.Passes used c.attributes.2 := by
  fun_induction attributes c with
  | case1 c h => exact ⟨[], .refl c⟩
  | case2 c a d h _ as e he ih =>
    obtain ⟨used, -, hp⟩ := attribute?_passes h
    obtain ⟨more, hm⟩ := ih
    rw [he] at hm
    exact ⟨_, hp.trans hm⟩

end Cursor

/-! ## One token -/

namespace Token

/-- Passes over an opening tag. -/
def opening? (c : Cursor) : Option (Token × Cursor) := do
  let d ← c.literal? "<"
  let (name, d) ← d.name?
  let (attributes, d) := d.attributes
  match d.spaces.literal? "/>" with
  | some e => return (.opening c.line name attributes true, e)
  | none => return (.opening c.line name attributes false, ← d.spaces.literal? ">")

/-- Passes over a closing tag. -/
def closing? (c : Cursor) : Option (Token × Cursor) := do
  let d ← c.literal? "</"
  let (name, d) ← d.name?
  return (.closing c.line name, ← d.spaces.literal? ">")

/-- Passes over a CDATA section. -/
def cdata? (c : Cursor) : Option (Token × Cursor) :=
  (c.enclosed? "<![CDATA[" "]]>").map fun p => (.cdata p.1, p.2)

/-- Passes over a run of text. -/
def text? (c : Cursor) : Option (Token × Cursor) :=
  match c.takeWhile (· != '<') with
  | ([], _) => none
  | (x :: run, d) => some (.text c.line (x :: run), d)

/-- Passes over one token inside the root element. -/
def next? (c : Cursor) : Option (Token × Cursor) :=
  (c.comment?.map (ignored, ·)).or <| (c.instruction?.map (ignored, ·)).or <| (cdata? c).or <|
    (opening? c).or <| (closing? c).or <| text? c

/-- An opening tag that is read is passed over. -/
theorem opening?_passes {c d : Cursor} {t : Token} (h : opening? c = some (t, d)) :
    ∃ used, used ≠ [] ∧ c.Passes used d := by
  simp only [opening?, Option.bind_eq_bind, Option.pure_def, Option.bind_eq_some_iff,
    Prod.exists] at h
  obtain ⟨d₁, h₁, name, d₂, h₂, h⟩ := h
  obtain ⟨u₂, -, p₂⟩ := Cursor.name?_passes h₂
  obtain ⟨u₃, p₃⟩ := d₂.attributes_passes
  obtain ⟨u₄, p₄⟩ := d₂.attributes.2.spaces_passes
  have p := (((Cursor.literal?_passes h₁).trans p₂).trans p₃).trans p₄
  split at h
  · rename_i e he
    simp only [Option.some.injEq, Prod.mk.injEq] at h
    obtain ⟨-, rfl⟩ := h
    exact ⟨_, by simp, p.trans (Cursor.literal?_passes he)⟩
  · simp only [Option.bind_eq_some_iff, Option.some.injEq, Prod.mk.injEq] at h
    obtain ⟨e, he, -, rfl⟩ := h
    exact ⟨_, by simp, p.trans (Cursor.literal?_passes he)⟩

/-- A closing tag that is read is passed over. -/
theorem closing?_passes {c d : Cursor} {t : Token} (h : closing? c = some (t, d)) :
    ∃ used, used ≠ [] ∧ c.Passes used d := by
  simp only [closing?, Option.bind_eq_bind, Option.pure_def, Option.bind_eq_some_iff,
    Option.some.injEq, Prod.mk.injEq, Prod.exists] at h
  obtain ⟨d₁, h₁, name, d₂, h₂, d₃, h₃, -, rfl⟩ := h
  obtain ⟨u₂, -, p₂⟩ := Cursor.name?_passes h₂
  obtain ⟨u₃, p₃⟩ := d₂.spaces_passes
  exact ⟨_, by simp,
    (((Cursor.literal?_passes h₁).trans p₂).trans p₃).trans (Cursor.literal?_passes h₃)⟩

/-- A section of plain characters is passed over with its marks. -/
theorem cdata?_passes {c d : Cursor} {t : Token} (h : cdata? c = some (t, d)) :
    ∃ used, used ≠ [] ∧ c.Passes used d := by
  obtain ⟨⟨body, e⟩, he, hp⟩ := Option.map_eq_some_iff.1 h
  obtain ⟨-, rfl⟩ := Prod.mk.inj hp
  exact ⟨_, by simp, Cursor.enclosed?_passes he⟩

/-- A run of text is passed over, and no run is empty. -/
theorem text?_passes {c d : Cursor} {t : Token} (h : text? c = some (t, d)) :
    ∃ used, used ≠ [] ∧ c.Passes used d := by
  have hp := Cursor.takeWhile_passes (· != '<') c
  unfold text? at h
  split at h
  · simp at h
  · rename_i x run e he
    simp only [Option.some.injEq, Prod.mk.injEq] at h
    obtain ⟨-, rfl⟩ := h
    rw [he] at hp
    exact ⟨_, by simp, hp⟩

/-- Whichever token is read next, something is passed over, so there are finitely many tokens. -/
theorem next?_passes {c d : Cursor} {t : Token} (h : next? c = some (t, d)) :
    ∃ used, used ≠ [] ∧ c.Passes used d := by
  simp only [next?, Option.or_eq_some_iff, Option.map_eq_some_iff, Prod.mk.injEq] at h
  rcases h with ⟨e, he, -, rfl⟩ | ⟨-, ⟨e, he, -, rfl⟩ | ⟨-, h | ⟨-, h | ⟨-, h | ⟨-, h⟩⟩⟩⟩⟩
  · exact Cursor.comment?_passes he
  · exact Cursor.instruction?_passes he
  · exact cdata?_passes h
  · exact opening?_passes h
  · exact closing?_passes h
  · exact text?_passes h

/-- How many elements are open behind the token, of `depth` in front of it. -/
def depthAfter (depth : Nat) : Token → Nat
  | .opening _ _ _ false => depth + 1
  | .closing _ _ => depth - 1
  | _ => depth

end Token

/-! ## All tokens of a document -/

/-- The tokens from a place inside `depth` open elements to the tag that closes the outermost. -/
def tokensWithin? (depth : Nat) (c : Cursor) : Option (List Token × Cursor) :=
  if depth = 0 then some ([], c)
  else
    match h : Token.next? c with
    | none => none
    | some (t, d) =>
      have : d.rest.length < c.rest.length :=
        have ⟨_, hne, hp⟩ := Token.next?_passes h
        hp.length_lt hne
      (tokensWithin? (t.depthAfter depth) d).map fun p => (t :: p.1, p.2)
termination_by c.rest.length

/-- The tokens of the root element of a document, if the document follows the grammar. -/
def tokens? (source : List Char) : Option (List Token) := do
  let (t, c) ← Token.opening? (Cursor.prolog ⟨1, source⟩)
  let (ts, c) ← tokensWithin? (t.depthAfter 0) c
  if c.miscellany.rest = [] then some (t :: ts) else none

end Dialect.Markup

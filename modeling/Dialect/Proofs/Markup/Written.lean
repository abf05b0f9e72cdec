import Dialect.Proofs.Markup.Exactness

/-!
# Documents as they are written

The grammar of documents as a type: a `WrittenDocument` holds all that makes up its text, the blanks
in its tags, the quotes around its values, its comments. Two things are left free that the grammar
leaves free too, the names in closing tags and what stands behind ampersands.

A source has tokens exactly if it is the text of such a document, and they are then the tokens that
the document says it has (`tokens?_eq_some_iff_text`). One way, the text is read token by token. The
other way, the tokens that are read are put together again, one open element inside the other.
-/

namespace Dialect.Markup

open Cursor

/-- The line, counted from one, of a place with `before` in front of it. -/
def lineBehind (before : List Char) : Nat := 1 + before.count '\n'

/-- Behind a text, the line is further on by its line feeds. -/
theorem lineBehind_append (before s : List Char) :
    lineBehind (before ++ s) = lineBehind before + s.count '\n' := by
  rw [lineBehind, List.count_append, ← Nat.add_assoc]
  rfl

/-- The place in a source with `before` in front of it and `rest` left to read. -/
def Cursor.behind (before rest : List Char) : Cursor := ⟨lineBehind before, rest⟩

/-- The cursor passes over what is written at its place. -/
theorem Cursor.behind_passes (before s rest : List Char) :
    (behind before (s ++ rest)).Passes s (behind (before ++ s) rest) :=
  passes_iff.mpr ⟨rfl, lineBehind_append before s⟩

/-! ## Syntax -/

/-- An attribute with the blanks in front of it. -/
structure WrittenAttribute where
  lead : List Char
  name : String
  /-- The blanks in front of the equals sign. -/
  before : List Char
  /-- The blanks behind the equals sign. -/
  behind : List Char
  quote : Char
  value : List Char
  lead_ne_nil : lead ≠ []
  isGap_lead : IsGap lead
  isName : IsName name.toList
  isGap_before : IsGap before
  isGap_behind : IsGap behind
  isQuote : quote = '"' ∨ quote = '\''
  quote_notMem : quote ∉ value
  lt_notMem : '<' ∉ value

namespace WrittenAttribute

/-- What stands in front of the value. -/
def front (a : WrittenAttribute) : List Char :=
  a.lead ++ (a.name.toList ++ (a.before ++ "=".toList ++ (a.behind ++ [a.quote])))

def text (a : WrittenAttribute) : List Char := a.front ++ (a.value ++ [a.quote])

/-- The attribute as it is read where `before` stands in front of its blanks. -/
def raw (before : List Char) (a : WrittenAttribute) : RawAttribute :=
  ⟨lineBehind before, a.name, a.value⟩

/-- Attributes one behind the other, as they are read. -/
def rawAll (before : List Char) : List WrittenAttribute → List RawAttribute
  | [] => []
  | a :: as => a.raw before :: rawAll (before ++ a.text) as

end WrittenAttribute

/-- A tag that opens an element, its end left open. -/
structure Tag where
  name : String
  attributes : List WrittenAttribute
  gap : List Char
  isName : IsName name.toList
  isGap : IsGap gap

namespace Tag

def text (tag : Tag) (isEmpty : Bool) : List Char :=
  "<".toList ++ (tag.name.toList ++
    (tag.attributes.flatMap WrittenAttribute.text ++ (tag.gap ++ (tagEnd isEmpty).toList)))

def raws (before : List Char) (tag : Tag) : List RawAttribute :=
  WrittenAttribute.rawAll (before ++ ("<".toList ++ tag.name.toList)) tag.attributes

def token (before : List Char) (tag : Tag) (isEmpty : Bool) : Token :=
  .opening (lineBehind before) tag.name (tag.raws before) isEmpty

end Tag

/-- A tag that closes an element. -/
structure ClosingTag where
  name : String
  gap : List Char
  isName : IsName name.toList
  isGap : IsGap gap

namespace ClosingTag

def text (tag : ClosingTag) : List Char :=
  "</".toList ++ (tag.name.toList ++ (tag.gap ++ ">".toList))

def token (before : List Char) (tag : ClosingTag) : Token := .closing (lineBehind before) tag.name

end ClosingTag

/-- All the characters between two pieces of markup, of which there may be none. -/
structure Run where
  chars : List Char
  lt_notMem : '<' ∉ chars

namespace Run

def empty : Run := ⟨[], List.not_mem_nil⟩

def append (run more : Run) : Run :=
  ⟨run.chars ++ more.chars, fun h => (List.mem_append.mp h).elim run.lt_notMem more.lt_notMem⟩

def tokens (before : List Char) (run : Run) : List Token :=
  if run.chars = [] then [] else [.text (lineBehind before) run.chars]

end Run

/-- Markup in which no references are looked for. -/
inductive Inert where
  | ignored (s : List Char) (h : IsComment s ∨ IsInstruction s)
  | cdata (body : List Char) (h : ¬ "]]>".toList <:+: body)

namespace Inert

def text : Inert → List Char
  | .ignored s _ => s
  | .cdata body _ => "<![CDATA[".toList ++ (body ++ "]]>".toList)

/-- What it adds to the text of the element it stands in. -/
def body : Inert → List Char
  | .ignored _ _ => []
  | .cdata body _ => body

def token : Inert → Token
  | .ignored _ _ => .ignored
  | .cdata body _ => .cdata body

end Inert

mutual

/-- An element: a tag that is its own end, or one with a content and a tag that closes it. -/
inductive Written where
  | empty (tag : Tag)
  | paired (tag : Tag) (content : Content) (close : ClosingTag)

/-- What stands inside an element: runs of text with other things between them. -/
inductive Content where
  | last (run : Run)
  | inert (run : Run) (item : Inert) (rest : Content)
  | child (run : Run) (e : Written) (rest : Content)

end

mutual

def Written.text : Written → List Char
  | .empty tag => tag.text true
  | .paired tag content close => tag.text false ++ (content.text ++ close.text)

def Content.text : Content → List Char
  | .last run => run.chars
  | .inert run item rest => run.chars ++ (item.text ++ rest.text)
  | .child run e rest => run.chars ++ (e.text ++ rest.text)

end

mutual

/-- The tokens of an element with `before` in front of it. -/
def Written.tokens (before : List Char) : Written → List Token
  | .empty tag => [tag.token before true]
  | .paired tag content close =>
    tag.token before false :: (content.tokens (before ++ tag.text false) ++
      [close.token (before ++ tag.text false ++ content.text)])

def Content.tokens (before : List Char) : Content → List Token
  | .last run => run.tokens before
  | .inert run item rest =>
    run.tokens before ++ (item.token :: rest.tokens (before ++ run.chars ++ item.text))
  | .child run e rest =>
    run.tokens before ++ (e.tokens (before ++ run.chars) ++
      rest.tokens (before ++ run.chars ++ e.text))

end

/-- The content with more text at its beginning. -/
def Content.prepend (run : Run) : Content → Content
  | .last first => .last (run.append first)
  | .inert first item rest => .inert (run.append first) item rest
  | .child first e rest => .child (run.append first) e rest

/-- A run put in front of a content stands in front of its text. -/
@[simp] theorem Content.text_prepend (run : Run) (content : Content) :
    (content.prepend run).text = run.chars ++ content.text := by
  cases content <;> simp [prepend, text, Run.append]

/-- An element with what may stand around it. -/
structure WrittenDocument where
  front : List Char
  root : Written
  back : List Char
  isProlog : IsProlog front
  isMiscellany : IsMiscellany back

namespace WrittenDocument

def text (d : WrittenDocument) : List Char := d.front ++ (d.root.text ++ d.back)

def tokens (d : WrittenDocument) : List Token := d.root.tokens d.front

end WrittenDocument

/-! ## Reading what is written -/

section Read

variable {depth : Nat} {before rest : List Char}

/-- More tokens in front of those that are read. -/
def withTokens (ts : List Token) (p : List Token × Cursor) : List Token × Cursor := (ts ++ p.1, p.2)

/-- Putting no tokens in front changes nothing. -/
@[simp] theorem withTokens_nil : withTokens [] = id := rfl

/-- Tokens are put in front of tokens. -/
@[simp] theorem withTokens_comp (ts more : List Token) :
    withTokens ts ∘ withTokens more = withTokens (ts ++ more) := by
  funext p
  simp [withTokens]

/-- Inside an open element, the next token is put in front of those that follow. -/
theorem tokensWithin?_of_next {c d : Cursor} {t : Token} (hdepth : depth ≠ 0)
    (hnext : Token.next? c = some (t, d)) :
    tokensWithin? depth c =
      (tokensWithin? (t.depthAfter depth) d).map (withTokens [t]) := by
  rw [tokensWithin?, if_neg hdepth]
  split
  · rename_i hnone
    exact absurd (hnone.symm.trans hnext) (by simp)
  · rename_i t' d' hsome
    obtain ⟨rfl, rfl⟩ := Prod.mk.inj (Option.some.inj (hnext.symm.trans hsome))
    rfl

/-- An attribute as it is written spells the attribute as it is read. -/
theorem WrittenAttribute.spells (before : List Char) (a : WrittenAttribute) :
    (a.raw before).Spells (lineBehind before) a.text := by
  have h : (a.raw before).Spells (lineBehind before) _ :=
    .intro a.lead_ne_nil a.isGap_lead a.isName a.isGap_before a.isGap_behind a.isQuote
      a.quote_notMem a.lt_notMem
  simpa [text, front] using h

/-- Attributes as they are written spell those that are read. -/
theorem WrittenAttribute.spellAll (before : List Char) (as : List WrittenAttribute) :
    RawAttribute.SpellAll (lineBehind before) (rawAll before as) (as.flatMap text) := by
  induction as generalizing before with
  | nil => exact .nil
  | cons a as ih =>
    have hrest := ih (before ++ a.text)
    rw [lineBehind_append] at hrest
    exact .cons (a.spells before) hrest

/-- The attributes of a tag as they are written spell those that are read. -/
theorem Tag.spellAll (before : List Char) (tag : Tag) :
    RawAttribute.SpellAll (lineBehind before) (tag.raws before)
      (tag.attributes.flatMap WrittenAttribute.text) := by
  have h := WrittenAttribute.spellAll (before ++ ("<".toList ++ tag.name.toList)) tag.attributes
  rw [lineBehind_append, List.count_append, tag.isName.count_newline] at h
  exact h

/-- A tag that is written is read. -/
theorem Tag.opening?_eq (tag : Tag) (isEmpty : Bool) (before rest : List Char) :
    Token.opening? (behind before (tag.text isEmpty ++ rest)) =
      some (tag.token before isEmpty, behind (before ++ tag.text isEmpty) rest) :=
  Token.opening?_eq tag.isName (tag.spellAll before) tag.isGap (behind_passes ..)

/-- A closing tag that is written is read. -/
theorem ClosingTag.next?_eq (tag : ClosingTag) (before rest : List Char) :
    Token.next? (behind before (tag.text ++ rest)) =
      some (tag.token before, behind (before ++ tag.text) rest) :=
  Token.next?_eq (.closing tag.isName tag.isGap) (behind_passes ..) trivial

/-- What is written between text and tags is read. -/
theorem Inert.next?_eq (item : Inert) (before rest : List Char) :
    Token.next? (behind before (item.text ++ rest)) =
      some (item.token, behind (before ++ item.text) rest) := by
  cases item with
  | ignored s h => exact Token.next?_eq (.ignored h) (behind_passes ..) trivial
  | cdata body h => exact Token.next?_eq (.cdata h) (behind_passes ..) trivial

/-- What is neither text nor tag opens and closes nothing. -/
theorem Inert.depthAfter_token (item : Inert) : item.token.depthAfter depth = depth := by
  cases item <;> rfl

/-- A run of text stops in front of what is neither text nor tag. -/
theorem Inert.stops (item : Inert) (rest : List Char) :
    Stops (· != '<') (item.text ++ rest) := by
  cases item with
  | ignored s h => exact (Token.Spells.ignored h : Token.Spells 0 _ _).stops (by simp) rest
  | cdata body h => exact stops_cons.mpr rfl

/-- A run of text stops in front of a closing tag. -/
theorem ClosingTag.stops (tag : ClosingTag) (rest : List Char) :
    Stops (· != '<') (tag.text ++ rest) := stops_cons.mpr rfl

/-- A run of text stops in front of an element. -/
theorem Written.stops (e : Written) (rest : List Char) : Stops (· != '<') (e.text ++ rest) := by
  cases e <;> rw [Written.text] <;> exact stops_cons.mpr rfl

/-- A run that is written is read as one token, or as none if it is empty. -/
theorem Run.tokensWithin?_eq (run : Run) (hdepth : depth ≠ 0)
    (hstop : Stops (· != '<') rest) :
    tokensWithin? depth (behind before (run.chars ++ rest)) =
      (tokensWithin? depth (behind (before ++ run.chars) rest)).map
        (withTokens (run.tokens before)) := by
  unfold tokens
  split
  · next hnil => simp [hnil]
  · next hne =>
    exact tokensWithin?_of_next hdepth
      (Token.next?_eq (.text hne run.lt_notMem) (behind_passes ..) hstop)

mutual

/-- The tag that opens an element is read, and then what is left of it. -/
theorem Written.reads (e : Written) (before rest : List Char) :
    ∃ t f ts, Token.opening? (behind before (e.text ++ rest)) = some (t, f) ∧
      e.tokens before = t :: ts ∧
      ∀ depth, tokensWithin? (t.depthAfter depth) f =
        (tokensWithin? depth (behind (before ++ e.text) rest)).map (withTokens ts) := by
  match e with
  | .empty tag =>
    refine ⟨_, _, [], tag.opening?_eq true before rest, rfl, fun depth => ?_⟩
    rw [withTokens_nil, Option.map_id]
    rfl
  | .paired tag content close =>
    rw [Written.text, List.append_assoc, List.append_assoc]
    refine ⟨_, _, _, tag.opening?_eq false before _, Written.tokens.eq_2 .., fun depth => ?_⟩
    have hdepth : depth + 1 ≠ 0 := Nat.succ_ne_zero depth
    have hclose := close.next?_eq (before ++ tag.text false ++ content.text) rest
    show tokensWithin? (depth + 1) _ = _
    rw [content.reads _ hdepth (close.stops rest), tokensWithin?_of_next hdepth hclose,
      Option.map_map, withTokens_comp, List.append_assoc before, List.append_assoc before,
      List.append_assoc (tag.text false)]
    rfl

/-- A content is read up to the tag behind it. -/
theorem Content.reads (content : Content) (before : List Char) {rest : List Char} {depth : Nat}
    (hdepth : depth ≠ 0) (hstop : Stops (· != '<') rest) :
    tokensWithin? depth (behind before (content.text ++ rest)) =
      (tokensWithin? depth (behind (before ++ content.text) rest)).map
        (withTokens (content.tokens before)) := by
  -- each piece is read in front of the rest, which is read from the place behind it
  match content with
  | .last run => exact run.tokensWithin?_eq hdepth hstop
  | .inert run item more =>
    have hitem := item.next?_eq (before ++ run.chars) (more.text ++ rest)
    rw [Content.text, List.append_assoc, List.append_assoc,
      run.tokensWithin?_eq hdepth (item.stops _), tokensWithin?_of_next hdepth hitem,
      item.depthAfter_token, more.reads _ hdepth hstop, Option.map_map, Option.map_map,
      withTokens_comp, withTokens_comp]
    simp [Content.tokens]
  | .child run e more =>
    obtain ⟨t, f, ts, hopening, htokens, hts⟩ := e.reads (before ++ run.chars) (more.text ++ rest)
    rw [Content.text, List.append_assoc, List.append_assoc,
      run.tokensWithin?_eq hdepth (e.stops _),
      tokensWithin?_of_next hdepth (Token.next?_of_opening? hopening), hts,
      more.reads _ hdepth hstop, Option.map_map, Option.map_map, Option.map_map, withTokens_comp,
      withTokens_comp, withTokens_comp]
    simp [Content.tokens, htokens]

end

/-- A document that is written has its tokens. -/
theorem WrittenDocument.tokens?_text (d : WrittenDocument) : tokens? d.text = some d.tokens := by
  obtain ⟨t, f, ts, hopening, htokens, hts⟩ := d.root.reads d.front d.back
  obtain ⟨x, rest, hrest, hx⟩ := Token.exists_of_opening? hopening
  have hfront := behind_passes [] d.front (d.root.text ++ d.back)
  have hprolog : prolog ⟨1, d.text⟩ = behind d.front (d.root.text ++ d.back) :=
    prolog_eq d.isProlog hfront hrest hx
  have hback := behind_passes (d.front ++ d.root.text) d.back []
  have hend : (behind (d.front ++ d.root.text) d.back).miscellany.rest = [] := by
    rw [List.append_nil] at hback
    rw [miscellany_eq d.isMiscellany hback (miscellany?_eq_none rfl rfl (stops_nil _))]
    rfl
  refine tokens?_eq_some_iff.mpr ⟨t, f, ts, _, by rw [hprolog, hopening], ?_, hend, htokens⟩
  rw [hts 0, tokensWithin?_nil_iff.mpr ⟨rfl, rfl⟩]
  simp [withTokens]

end Read

/-! ## Putting what is read together -/

section Recover

variable {c d : Cursor}

/-- Attributes that are spelt are those of something written. -/
theorem RawAttribute.SpellAll.exists_written {line : Nat} {raws : List RawAttribute}
    {s : List Char} (h : SpellAll line raws s) :
    ∃ as : List WrittenAttribute, as.flatMap WrittenAttribute.text = s := by
  induction h with
  | nil => exact ⟨[], rfl⟩
  | cons ha _ ih =>
    obtain ⟨as, rfl⟩ := ih
    cases ha with
    | @intro lead before behind value name quote hne hlead hname hbefore hbehind hquote hvalue hlt =>
      refine ⟨⟨lead, name, before, behind, quote, value, hne, hlead, hname, hbefore, hbehind,
        hquote, hvalue, hlt⟩ :: as, ?_⟩
      simp [WrittenAttribute.text, WrittenAttribute.front]

/-- The texts of contents and of the tags behind them, for each open element from the innermost
outwards. -/
def levelsText (levels : List (Content × ClosingTag)) : List Char :=
  levels.flatMap fun level => level.1.text ++ level.2.text

/-- The innermost level stands in front of those around it. -/
theorem levelsText_cons (level : Content × ClosingTag) (levels : List (Content × ClosingTag)) :
    levelsText (level :: levels) = level.1.text ++ level.2.text ++ levelsText levels := rfl

/-- An opening tag that is spelt is a tag that is written. -/
theorem exists_tag {line : Nat} {name : String} {raws : List RawAttribute} {isEmpty : Bool}
    {s : List Char} (h : (Token.opening line name raws isEmpty).Spells line s) :
    ∃ tag : Tag, tag.text isEmpty = s := by
  cases h with
  | opening hname hraws hgap =>
    obtain ⟨as, rfl⟩ := hraws.exists_written
    exact ⟨⟨name, as, _, hname, hgap⟩, rfl⟩

/-- What stands in front of the innermost content may be made part of it. -/
theorem exists_levels_of_innermost {e : Cursor} {depth : Nat} {s : List Char}
    {levels : List (Content × ClosingTag)} (hdepth : depth ≠ 0) (hlength : levels.length = depth)
    (hp : c.Passes s e) (hq : e.Passes (levelsText levels) d) (f : Content → Content)
    (hf : ∀ content, (f content).text = s ++ content.text) :
    ∃ levels', levels'.length = depth ∧ c.Passes (levelsText levels') d := by
  rcases levels with _ | ⟨⟨content, close⟩, levels⟩
  · exact absurd hlength.symm hdepth
  · refine ⟨(f content, close) :: levels, hlength, ?_⟩
    simpa [levelsText, hf] using hp.trans hq

/-- What is read inside open elements is, for each of them, a content and a tag that closes it. -/
theorem exists_levels_of_tokensWithin? {ts : List Token} {depth : Nat}
    (h : tokensWithin? depth c = some (ts, d)) :
    ∃ levels, levels.length = depth ∧ c.Passes (levelsText levels) d := by
  induction ts generalizing depth c with
  | nil =>
    obtain ⟨rfl, rfl⟩ := tokensWithin?_nil_iff.mp h
    exact ⟨[], rfl, .refl d⟩
  | cons t ts ih =>
    obtain ⟨hdepth, e, hnext, h⟩ := tokensWithin?_cons_iff.mp h
    obtain ⟨s, hs, hp, -⟩ := Token.next?_spells hnext
    obtain ⟨levels, hlength, hq⟩ := ih h
    cases hs with
    | ignored hs =>
      exact exists_levels_of_innermost hdepth hlength hp hq (.inert .empty (.ignored s hs))
        fun _ => rfl
    | @cdata body hbody =>
      exact exists_levels_of_innermost hdepth hlength hp hq (.inert .empty (.cdata body hbody))
        fun _ => rfl
    | text _ hrun =>
      exact exists_levels_of_innermost hdepth hlength hp hq (.prepend ⟨s, hrun⟩)
        (Content.text_prepend ⟨s, hrun⟩)
    | @closing name gap hname hgap =>
      refine ⟨(.last .empty, ⟨name, gap, hname, hgap⟩) :: levels, ?_, hp.trans hq⟩
      rw [List.length_cons, hlength]
      exact Nat.succ_pred_eq_of_ne_zero hdepth
    | @opening name raws _ _ isEmpty hname hraws hgap =>
      obtain ⟨tag, htag⟩ := exists_tag (.opening hname hraws hgap)
      rw [← htag] at hp
      cases isEmpty with
      | true =>
        exact exists_levels_of_innermost hdepth hlength hp hq (.child .empty (.empty tag))
          fun _ => rfl
      | false =>
        -- The innermost level is the rest of the element that the tag opens.
        rcases levels with _ | ⟨⟨content, close⟩, levels⟩
        · exact absurd hlength.symm (Nat.succ_ne_zero depth)
        · obtain ⟨f, hinner, hq⟩ := passes_append_iff.mp (levelsText_cons .. ▸ hq)
          exact exists_levels_of_innermost hdepth (Nat.succ.inj hlength) (hp.trans hinner) hq
            (.child .empty (.paired tag content close)) fun _ => rfl

/-- A source that has tokens is the text of a document. -/
theorem exists_written_of_tokens? {source : List Char} {ts : List Token}
    (h : tokens? source = some ts) : ∃ d : WrittenDocument, d.text = source := by
  obtain ⟨t, c, ts, d, hopening, hts, hend, rfl⟩ := tokens?_eq_some_iff.mp h
  obtain ⟨front, hfront, hp⟩ := prolog_spells ⟨1, source⟩
  obtain ⟨name, raws, isEmpty, s, rfl, hs, hq⟩ := Token.opening?_spells hopening
  obtain ⟨levels, hlength, hr⟩ := exists_levels_of_tokensWithin? hts
  obtain ⟨back, hback, ht⟩ := d.miscellany_spells
  obtain ⟨tag, rfl⟩ := exists_tag hs
  -- the root element is cut where it is closed
  have hsource : source = front ++ (tag.text isEmpty ++ (levelsText levels ++ back)) := by
    have hsource := (hp.trans (hq.trans (hr.trans ht))).1
    rw [hend] at hsource
    simpa using hsource
  cases isEmpty with
  | true =>
    obtain rfl := List.length_eq_zero_iff.mp hlength
    exact ⟨⟨front, .empty tag, back, hfront, hback⟩, hsource.symm⟩
  | false =>
    obtain ⟨⟨content, close⟩, rfl⟩ := List.length_eq_one_iff.mp hlength
    refine ⟨⟨front, .paired tag content close, back, hfront, hback⟩, ?_⟩
    rw [hsource]
    simp [WrittenDocument.text, Written.text, levelsText]

end Recover

/-- A source has tokens exactly if it is the text of a document, and they are the document's. -/
theorem tokens?_eq_some_iff_text {source : List Char} {ts : List Token} :
    tokens? source = some ts ↔ ∃ d : WrittenDocument, d.text = source ∧ d.tokens = ts := by
  constructor
  · intro h
    obtain ⟨d, rfl⟩ := exists_written_of_tokens? h
    exact ⟨d, rfl, Option.some.inj (d.tokens?_text.symm.trans h)⟩
  · rintro ⟨d, rfl, rfl⟩
    exact d.tokens?_text

end Dialect.Markup

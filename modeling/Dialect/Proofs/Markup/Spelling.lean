import Dialect.Proofs.Markup.Scan

/-!
# How tokens are spelled

The lexical grammar of the root element, as relations between what is read and the texts that say
it: attributes (`RawAttribute.Spells`) and tokens (`Token.Spells`). Each reader finds exactly the
texts of its relation. A token ends where its last characters say so; only a run of text ends where
something else begins (`Token.Maximal`).
-/

namespace Dialect.Markup

/-! ## Comments, instructions and declarations -/

/-- The text stands between `opener` and the first `closer` behind it. -/
def IsEnclosed (opener closer : String) (s : List Char) : Prop :=
  ∃ body, ¬ closer.toList <:+: body ∧ s = opener.toList ++ (body ++ closer.toList)

def IsComment (s : List Char) : Prop := IsEnclosed "<!--" "-->" s

def IsInstruction (s : List Char) : Prop := IsEnclosed "<?" "?>" s

def IsDoctype (s : List Char) : Prop := IsEnclosed "<!DOCTYPE" ">" s

namespace Cursor

variable {c d : Cursor}

/-- Something enclosed is read exactly where it stands. -/
theorem enclosed?_map_eq_some_iff {opener closer : String} (hne : closer.toList ≠ [])
    (hcloser : Unbordered closer.toList) :
    (c.enclosed? opener closer).map (·.2) = some d ↔
      ∃ s, IsEnclosed opener closer s ∧ c.Passes s d := by
  simp only [Option.map_eq_some_iff, Prod.exists, enclosed?_eq_some_iff hne hcloser, IsEnclosed]
  constructor
  · rintro ⟨body, e, ⟨hbody, hp⟩, rfl⟩
    exact ⟨_, ⟨body, hbody, rfl⟩, hp⟩
  · rintro ⟨_, ⟨body, hbody, rfl⟩, hp⟩
    exact ⟨body, d, ⟨hbody, hp⟩, rfl⟩

/-- A comment is read exactly where one stands. -/
theorem comment?_eq_some_iff : c.comment? = some d ↔ ∃ s, IsComment s ∧ c.Passes s d :=
  enclosed?_map_eq_some_iff (by decide) (by decide)

/-- A processing instruction is read exactly where one stands. -/
theorem instruction?_eq_some_iff :
    c.instruction? = some d ↔ ∃ s, IsInstruction s ∧ c.Passes s d :=
  enclosed?_map_eq_some_iff (by decide) (by decide)

/-- A declaration of the document type is read exactly where one stands. -/
theorem doctype?_eq_some_iff : c.doctype? = some d ↔ ∃ s, IsDoctype s ∧ c.Passes s d :=
  enclosed?_map_eq_some_iff (by decide) (by decide)

/-- No comment is read where none is opened. -/
theorem comment?_eq_none (h : stripLiteral? "<!--".toList c.rest = none) : c.comment? = none := by
  rw [comment?, enclosed?_eq_none h]
  rfl

/-- No processing instruction is read where none is opened. -/
theorem instruction?_eq_none (h : stripLiteral? "<?".toList c.rest = none) :
    c.instruction? = none := by
  rw [instruction?, enclosed?_eq_none h]
  rfl

/-- No declaration of the document type is read where none is opened. -/
theorem doctype?_eq_none (h : stripLiteral? "<!DOCTYPE".toList c.rest = none) :
    c.doctype? = none := by
  rw [doctype?, enclosed?_eq_none h]
  rfl

end Cursor

/-! ## What may stand next to blanks and names -/

/-- Blanks do not stand in names. -/
theorem isNameChar_eq_false_of_isSpace {x : Char} (h : isSpace x) : isNameChar x = false := by
  simp only [isSpace, Bool.or_eq_true, beq_iff_eq] at h
  rcases h with ((rfl | rfl) | rfl) | rfl <;> decide

/-- Names do not begin with blanks. -/
theorem isSpace_eq_false_of_isNameStart {x : Char} (h : isNameStart x) : isSpace x = false := by
  refine Bool.eq_false_iff.mpr fun hx => ?_
  have hname : isNameChar x = false := isNameChar_eq_false_of_isSpace hx
  exact Bool.false_ne_true (hname.symm.trans (Cursor.isNameChar_of_isNameStart h))

/-- A character that begins no name is not the first of one. -/
theorem ne_of_isNameStart {x mark : Char} (hx : isNameStart x) (hmark : isNameStart mark = false) :
    mark ≠ x := by
  rintro rfl
  exact Bool.false_ne_true (hmark.symm.trans hx)

/-- Blanks stop in front of a name. -/
theorem IsName.stops_isSpace {name : List Char} (h : IsName name) (rest : List Char) :
    Stops isSpace (name ++ rest) := by
  obtain ⟨x, more, rfl, hx, -⟩ := h.exists_cons
  exact stops_cons.mpr (isSpace_eq_false_of_isNameStart hx)

/-- No name goes on behind blanks, nor without them where no name goes on. -/
theorem IsGap.stops_isNameChar {gap rest : List Char} (hgap : IsGap gap)
    (hrest : Stops isNameChar rest) : Stops isNameChar (gap ++ rest) := by
  rcases gap with _ | ⟨x, gap⟩
  · exact hrest
  · exact stops_cons.mpr (isNameChar_eq_false_of_isSpace (hgap x List.mem_cons_self))

/-- There are no line feeds in names. -/
theorem IsName.count_newline {name : List Char} (h : IsName name) : name.count '\n' = 0 := by
  refine List.count_eq_zero.mpr fun hmem => ?_
  exact absurd (h.all_isNameChar '\n' hmem) (by decide)

/-! ## Attributes -/

/-- How an attribute is written, from a place on `line`: blanks, its name, an equals sign that may
have blanks on both sides, and its value in single or double quotes. -/
inductive RawAttribute.Spells (line : Nat) : RawAttribute → List Char → Prop
  | intro {lead before behind value : List Char} {name : String} {quote : Char}
      (hne : lead ≠ []) (hlead : IsGap lead) (hname : IsName name.toList)
      (hbefore : IsGap before) (hbehind : IsGap behind) (hquote : quote = '"' ∨ quote = '\'')
      (hvalue : quote ∉ value) (hlt : '<' ∉ value) :
      Spells line ⟨line, name, value⟩
        (lead ++ (name.toList ++ (before ++ "=".toList ++
          (behind ++ (quote :: (value ++ [quote]))))))

/-- Attributes one behind the other. -/
inductive RawAttribute.SpellAll : Nat → List RawAttribute → List Char → Prop
  | nil {line : Nat} : SpellAll line [] []
  | cons {line : Nat} {a : RawAttribute} {as : List RawAttribute} {s more : List Char}
      (ha : a.Spells line s) (has : SpellAll (line + s.count '\n') as more) :
      SpellAll line (a :: as) (s ++ more)

namespace Cursor

variable {c d : Cursor}

/-- The sign behind the name of an attribute may have blanks in front of it. -/
theorem spaces_equals_iff :
    c.spaces.literal? "=" = some d ↔ ∃ gap, IsGap gap ∧ c.Passes (gap ++ "=".toList) d :=
  spaces_literal?_eq_some_iff (stops_cons.mpr (by decide)) (by decide)

/-- An attribute is read exactly where it is spelt. -/
theorem attribute?_eq_some_iff {a : RawAttribute} :
    c.attribute? = some (a, d) ↔ ∃ s, a.Spells c.line s ∧ c.Passes s d := by
  simp only [attribute?, Option.bind_eq_bind, Option.pure_def, Option.bind_eq_some_iff,
    Option.some.injEq, Prod.mk.injEq, Prod.exists, spaces_equals_iff]
  constructor
  · rintro ⟨d₁, h₁, name, d₂, h₂, d₃, ⟨before, hbefore, p₃⟩, value, d₄, h₄, rfl, rfl⟩
    obtain ⟨lead, hne, hlead, p₁, -⟩ := spaces?_eq_some_iff.mp h₁
    obtain ⟨hname, p₂, -⟩ := name?_eq_some_iff.mp h₂
    obtain ⟨behind, hbehind, p₄, -⟩ := d₃.exists_gap
    -- either of the two quotes
    obtain ⟨quote, hquote, h₅⟩ : ∃ quote, (quote = '"' ∨ quote = '\'') ∧
        d₃.spaces.quoted? quote = some (value, d₄) := by
      rcases Option.or_eq_some_iff.mp h₄ with h | ⟨-, h⟩
      · exact ⟨'"', .inl rfl, h⟩
      · exact ⟨'\'', .inr rfl, h⟩
    obtain ⟨hvalue, hlt, p₅⟩ := quoted?_eq_some_iff.mp h₅
    exact ⟨_, .intro hne hlead hname hbefore hbehind hquote hvalue hlt,
      p₁.trans (p₂.trans (p₃.trans (p₄.trans p₅)))⟩
  · rintro ⟨_, @⟨lead, before, behind, value, name, quote, hne, hlead, hname, hbefore, hbehind,
      hquote, hvalue, hlt⟩, hp⟩
    obtain ⟨d₁, p₁, hp⟩ := passes_append_iff.mp hp
    obtain ⟨d₂, p₂, hp⟩ := passes_append_iff.mp hp
    obtain ⟨d₃, p₃, hp⟩ := passes_append_iff.mp hp
    obtain ⟨d₄, p₄, p₅⟩ := passes_append_iff.mp hp
    -- each piece ends where it is read to, as the next one begins with another kind of character
    have h₁ : c.spaces? = some d₁ :=
      spaces?_eq_some_iff.mpr ⟨lead, hne, hlead, p₁, by rw [p₂.1]; exact hname.stops_isSpace _⟩
    have h₂ : d₁.name? = some (name, d₂) := by
      refine name?_eq_some_iff.mpr ⟨hname, p₂, ?_⟩
      rw [p₃.1, List.append_assoc]
      exact hbefore.stops_isNameChar (stops_cons.mpr (by decide))
    have h₄ : d₃.spaces = d₄ := by
      refine spaces_eq hbehind p₄ ?_
      rw [p₅.1]
      refine stops_cons.mpr ?_
      rcases hquote with rfl | rfl <;> decide
    have h₅ : d₄.quoted? quote = some (value, d) := quoted?_eq_some_iff.mpr ⟨hvalue, hlt, p₅⟩
    refine ⟨d₁, h₁, name, d₂, h₂, d₃, ⟨before, hbefore, p₃⟩, value, d, ?_, rfl, rfl⟩
    rw [h₄, Option.or_eq_some_iff]
    rcases hquote with rfl | rfl
    · exact .inl h₅
    -- a value in single quotes begins no value in double quotes
    · refine .inr ⟨Option.eq_none_iff_forall_ne_some.mpr fun p hp => ?_, h₅⟩
      obtain ⟨-, -, q₅⟩ := quoted?_eq_some_iff.mp hp
      have hquotes := p₅.1.symm.trans q₅.1
      simp at hquotes

/-- No attribute begins at the end of a tag. -/
theorem attribute?_eq_none {gap : List Char} (hgap : IsGap gap) (hp : c.Passes gap d)
    (hspace : Stops isSpace d.rest) (hname : Stops isNameStart d.rest) :
    c.attribute? = none := by
  refine Option.eq_none_iff_forall_ne_some.mpr fun p hsome => ?_
  obtain ⟨a, e⟩ := p
  obtain ⟨_, @⟨lead, before, behind, value, name, quote, hne, hlead, hname', -, -, -, -, -⟩, hq⟩ :=
    attribute?_eq_some_iff.mp hsome
  obtain ⟨d', p₁, hq⟩ := passes_append_iff.mp hq
  obtain ⟨e', p₂, -⟩ := passes_append_iff.mp hq
  have hspace' : Stops isSpace d'.rest := by rw [p₂.1]; exact hname'.stops_isSpace _
  -- Both are the place behind all blanks, and at most one of the two is that of a name.
  obtain rfl : d = d' := (spaces_eq hgap hp hspace).symm.trans (spaces_eq hlead p₁ hspace')
  obtain ⟨x, more, hcons, hx, -⟩ := hname'.exists_cons
  rw [p₂.1, hcons] at hname
  exact ne_of_isNameStart hx (stops_cons.mp hname) rfl

/-- The attributes that are read are spelt one behind the other. -/
theorem attributes_spells (c : Cursor) :
    ∃ s, RawAttribute.SpellAll c.line c.attributes.1 s ∧ c.Passes s c.attributes.2 := by
  fun_induction attributes c with
  | case1 c h => exact ⟨[], .nil, .refl c⟩
  | case2 c a d h _ as e he ih =>
    obtain ⟨s, hs, hp⟩ := attribute?_eq_some_iff.mp h
    obtain ⟨more, hmore, hq⟩ := ih
    rw [he] at hmore hq
    rw [hp.line_eq] at hmore
    exact ⟨s ++ more, .cons hs hmore, hp.trans hq⟩

/-- Attributes that are spelt one behind the other are read, up to where none follows. -/
theorem attributes_eq {line : Nat} {as : List RawAttribute} {s : List Char}
    (h : RawAttribute.SpellAll line as s) (hline : c.line = line) (hp : c.Passes s d)
    (hd : d.attribute? = none) : c.attributes = (as, d) := by
  -- on the attributes; each leaves the line on which the next one is spelt
  induction h generalizing c with
  | nil =>
    obtain rfl := passes_nil_iff.mp hp
    rw [attributes]
    split
    · rfl
    · rename_i hsome
      rw [hd] at hsome
      simp at hsome
  | @cons line a as s more ha has ih =>
    obtain ⟨e, p₁, p₂⟩ := passes_append_iff.mp hp
    have hsome : c.attribute? = some (a, e) :=
      attribute?_eq_some_iff.mpr ⟨s, by rw [hline]; exact ha, p₁⟩
    have hrest : e.attributes = (as, d) := ih (by rw [p₁.line_eq, hline]) p₂
    rw [attributes]
    split
    · rename_i hnone
      rw [hsome] at hnone
      simp at hnone
    · rename_i a' e' hsome'
      rw [hsome] at hsome'
      obtain ⟨rfl, rfl⟩ := Prod.mk.inj (Option.some.inj hsome')
      rw [hrest]

end Cursor

/-! ## Tokens -/

/-- How a tag ends. -/
def tagEnd (isEmpty : Bool) : String := if isEmpty then "/>" else ">"

/-- How a token is written, from a place on `line`. -/
inductive Token.Spells (line : Nat) : Token → List Char → Prop
  | ignored {s : List Char} (h : IsComment s ∨ IsInstruction s) : Spells line .ignored s
  | cdata {body : List Char} (hbody : ¬ "]]>".toList <:+: body) :
      Spells line (.cdata body) ("<![CDATA[".toList ++ (body ++ "]]>".toList))
  | opening {name : String} {attributes : List RawAttribute} {s gap : List Char} {isEmpty : Bool}
      (hname : IsName name.toList) (hattributes : RawAttribute.SpellAll line attributes s)
      (hgap : IsGap gap) :
      Spells line (.opening line name attributes isEmpty)
        ("<".toList ++ (name.toList ++ (s ++ (gap ++ (tagEnd isEmpty).toList))))
  | closing {name : String} {gap : List Char} (hname : IsName name.toList) (hgap : IsGap gap) :
      Spells line (.closing line name) ("</".toList ++ (name.toList ++ (gap ++ ">".toList)))
  | text {run : List Char} (hne : run ≠ []) (hrun : '<' ∉ run) : Spells line (.text line run) run

namespace Token

variable {c d : Cursor}

open Cursor

/-- What belongs neither to a slash nor to a bracket stops at the end of a tag. -/
theorem stops_tagEnd (isEmpty : Bool) (rest : List Char) {p : Char → Bool} (hslash : p '/' = false)
    (hend : p '>' = false) : Stops p ((tagEnd isEmpty).toList ++ rest) := by
  cases isEmpty
  · exact stops_cons.mpr hend
  · exact stops_cons.mpr hslash

/-- A name stops in front of attributes, which begin with blanks, or in front of what follows. -/
theorem stops_isNameChar_of_spellAll {line : Nat} {as : List RawAttribute} {s rest : List Char}
    (h : RawAttribute.SpellAll line as s) (hrest : Stops isNameChar rest) :
    Stops isNameChar (s ++ rest) := by
  cases h with
  | nil => exact hrest
  | cons ha has =>
    obtain @⟨lead, _, _, _, _, _, hne, hlead, -, -, -, -, -, -⟩ := ha
    rcases lead with _ | ⟨x, lead⟩
    · exact absurd rfl hne
    · exact stops_cons.mpr (isNameChar_eq_false_of_isSpace (hlead x List.mem_cons_self))

/-- An opening tag that is read is spelt where it is read. -/
theorem opening?_spells {t : Token} (h : opening? c = some (t, d)) :
    ∃ name attributes isEmpty s, t = .opening c.line name attributes isEmpty ∧
      t.Spells c.line s ∧ c.Passes s d := by
  simp only [opening?, Option.bind_eq_bind, Option.pure_def, Option.bind_eq_some_iff,
    Prod.exists, literal?_eq_some_iff] at h
  obtain ⟨d₁, p₁, name, d₂, h₂, h⟩ := h
  obtain ⟨hname, p₂, -⟩ := name?_eq_some_iff.mp h₂
  obtain ⟨s, hs, p₃⟩ := d₂.attributes_spells
  obtain ⟨gap, hgap, p₄, -⟩ := d₂.attributes.2.exists_gap
  have hline : d₂.line = c.line := by
    rw [p₂.line_eq, hname.count_newline, p₁.line_eq]
    rfl
  rw [hline] at hs
  -- either end makes it a tag
  obtain ⟨isEmpty, p₅, rfl⟩ : ∃ isEmpty : Bool,
      d₂.attributes.2.spaces.Passes (tagEnd isEmpty).toList d ∧
        t = .opening c.line name d₂.attributes.1 isEmpty := by
    split at h
    · rename_i e he
      obtain ⟨rfl, rfl⟩ := Prod.mk.inj (Option.some.inj h)
      exact ⟨true, literal?_eq_some_iff.mp he, rfl⟩
    · simp only [Option.bind_eq_some_iff, Option.some.injEq, Prod.mk.injEq] at h
      obtain ⟨e, he, rfl, rfl⟩ := h
      exact ⟨false, literal?_eq_some_iff.mp he, rfl⟩
  exact ⟨name, _, isEmpty, _, rfl, .opening hname hs hgap,
    p₁.trans (p₂.trans (p₃.trans (p₄.trans p₅)))⟩

/-- An opening tag that is spelt is read. -/
theorem opening?_eq {name : String} {attributes : List RawAttribute} {s gap : List Char}
    {isEmpty : Bool} (hname : IsName name.toList)
    (hs : RawAttribute.SpellAll c.line attributes s) (hgap : IsGap gap)
    (hp : c.Passes ("<".toList ++ (name.toList ++ (s ++ (gap ++ (tagEnd isEmpty).toList)))) d) :
    opening? c = some (.opening c.line name attributes isEmpty, d) := by
  obtain ⟨d₁, p₁, hp⟩ := passes_append_iff.mp hp
  obtain ⟨d₂, p₂, hp⟩ := passes_append_iff.mp hp
  obtain ⟨d₃, p₃, hp⟩ := passes_append_iff.mp hp
  obtain ⟨d₄, p₄, p₅⟩ := passes_append_iff.mp hp
  -- neither a blank nor a name begins at the end of the tag, so no attribute is read there
  have hspace : Stops isSpace d₄.rest := by
    rw [p₅.1]
    exact stops_tagEnd isEmpty _ (by decide) (by decide)
  have hstart : Stops isNameStart d₄.rest := by
    rw [p₅.1]
    exact stops_tagEnd isEmpty _ (by decide) (by decide)
  have h₂ : d₁.name? = some (name, d₂) := by
    refine name?_eq_some_iff.mpr ⟨hname, p₂, ?_⟩
    rw [p₃.1, p₄.1, p₅.1]
    exact stops_isNameChar_of_spellAll hs
      (hgap.stops_isNameChar (stops_tagEnd isEmpty _ (by decide) (by decide)))
  have hline : d₂.line = c.line := by
    rw [p₂.line_eq, hname.count_newline, p₁.line_eq]
    rfl
  have h₃ : d₂.attributes = (attributes, d₃) :=
    attributes_eq hs hline p₃ (attribute?_eq_none hgap p₄ hspace hstart)
  have h₄ : d₃.spaces = d₄ := spaces_eq hgap p₄ hspace
  simp only [opening?, Option.bind_eq_bind, Option.pure_def, literal?_eq_some_iff.mpr p₁,
    Option.bind_some, h₂, h₃, h₄]
  cases isEmpty with
  | true =>
    have h₅ : d₄.literal? "/>" = some d := literal?_eq_some_iff.mpr p₅
    rw [h₅]
  | false =>
    have h₅ : d₄.literal? ">" = some d := literal?_eq_some_iff.mpr p₅
    have hnone : d₄.literal? "/>" = none := by
      rw [literal?, p₅.1]
      rfl
    rw [hnone, h₅]
    rfl

/-- A closing tag is read exactly where it is spelt. -/
theorem closing?_eq_some_iff {t : Token} :
    closing? c = some (t, d) ↔
      ∃ (name : String) (gap : List Char), t = .closing c.line name ∧ IsName name.toList ∧
        IsGap gap ∧ c.Passes ("</".toList ++ (name.toList ++ (gap ++ ">".toList))) d := by
  -- a gap is read as far as it goes, so the bracket has to be right behind it
  have hend : ∀ e f : Cursor, e.spaces.literal? ">" = some f ↔
      ∃ gap, IsGap gap ∧ e.Passes (gap ++ ">".toList) f := fun e f =>
    spaces_literal?_eq_some_iff (stops_cons.mpr (by decide)) (by decide)
  simp only [closing?, Option.bind_eq_bind, Option.pure_def, Option.bind_eq_some_iff,
    Option.some.injEq, Prod.mk.injEq, Prod.exists, literal?_eq_some_iff, name?_eq_some_iff]
  constructor
  · rintro ⟨d₁, p₁, name, d₂, ⟨hname, p₂, -⟩, d₃, h₃, rfl, rfl⟩
    obtain ⟨gap, hgap, p₃⟩ := (hend d₂ d₃).mp (literal?_eq_some_iff.mpr h₃)
    exact ⟨name, gap, rfl, hname, hgap, p₁.trans (p₂.trans p₃)⟩
  · rintro ⟨name, gap, rfl, hname, hgap, hp⟩
    obtain ⟨d₁, p₁, hp⟩ := passes_append_iff.mp hp
    obtain ⟨d₂, p₂, p₃⟩ := passes_append_iff.mp hp
    have hstop : Stops isNameChar d₂.rest := by
      rw [p₃.1, List.append_assoc]
      exact hgap.stops_isNameChar (stops_cons.mpr (by decide))
    exact ⟨d₁, p₁, name, d₂, ⟨hname, p₂, hstop⟩, d,
      literal?_eq_some_iff.mp ((hend d₂ d).mpr ⟨gap, hgap, p₃⟩), rfl, rfl⟩

/-- A section of plain characters is read exactly where it is spelt. -/
theorem cdata?_eq_some_iff {t : Token} :
    cdata? c = some (t, d) ↔
      ∃ body, t = .cdata body ∧ ¬ "]]>".toList <:+: body ∧
        c.Passes ("<![CDATA[".toList ++ (body ++ "]]>".toList)) d := by
  have henclosed : ∀ body e, c.enclosed? "<![CDATA[" "]]>" = some (body, e) ↔
      ¬ "]]>".toList <:+: body ∧ c.Passes ("<![CDATA[".toList ++ (body ++ "]]>".toList)) e :=
    fun _ _ => enclosed?_eq_some_iff (by decide) (by decide)
  simp only [cdata?, Option.map_eq_some_iff, Prod.exists, Prod.mk.injEq, henclosed]
  constructor
  · rintro ⟨body, e, ⟨hbody, hp⟩, rfl, rfl⟩
    exact ⟨body, rfl, hbody, hp⟩
  · rintro ⟨body, rfl, hbody, hp⟩
    exact ⟨body, d, ⟨hbody, hp⟩, rfl, rfl⟩

/-- A run of text is read up to the next bracket, or to the end. -/
theorem text?_eq_some_iff {t : Token} :
    text? c = some (t, d) ↔
      ∃ run, t = .text c.line run ∧ run ≠ [] ∧ '<' ∉ run ∧ c.Passes run d ∧
        Stops (· != '<') d.rest := by
  have hrun : ∀ run : List Char, (∀ x ∈ run, (x != '<') = true) ↔ '<' ∉ run := by
    intro run
    simp only [bne_iff_ne, ne_eq]
    exact ⟨fun h hmem => h _ hmem rfl, fun h x hx => ne_of_mem_of_not_mem hx h⟩
  constructor
  · intro h
    unfold text? at h
    split at h
    · simp at h
    · rename_i x run e he
      obtain ⟨rfl, rfl⟩ := Prod.mk.inj (Option.some.inj h)
      obtain ⟨hp, hall, hstop⟩ := takeWhile_eq_iff.mp he
      exact ⟨x :: run, rfl, List.cons_ne_nil x run, (hrun _).mp hall, hp, hstop⟩
  · rintro ⟨run, rfl, hne, hlt, hp, hstop⟩
    rcases run with _ | ⟨x, run⟩
    · exact absurd rfl hne
    · rw [text?, takeWhile_eq_iff.mpr ⟨hp, (hrun _).mpr hlt, hstop⟩]

/-- Behind a run of text begins a tag or nothing; a token of another kind may be followed by
anything. -/
def Maximal (rest : List Char) : Token → Prop
  | .text _ _ => Stops (· != '<') rest
  | _ => True

/-- The token that is read next is spelt where it is read, and cannot be longer. -/
theorem next?_spells {t : Token} (h : next? c = some (t, d)) :
    ∃ s, t.Spells c.line s ∧ c.Passes s d ∧ t.Maximal d.rest := by
  simp only [next?, Option.or_eq_some_iff, Option.map_eq_some_iff, Prod.mk.injEq,
    comment?_eq_some_iff, instruction?_eq_some_iff, cdata?_eq_some_iff, closing?_eq_some_iff,
    text?_eq_some_iff] at h
  -- one case for each kind of token, in the order in which they are tried
  rcases h with ⟨e, ⟨s, hs, hp⟩, rfl, rfl⟩ | ⟨-, ⟨e, ⟨s, hs, hp⟩, rfl, rfl⟩ |
    ⟨-, ⟨body, rfl, hbody, hp⟩ | ⟨-, h | ⟨-, ⟨name, gap, rfl, hname, hgap, hp⟩ |
    ⟨-, ⟨run, rfl, hne, hlt, hp, hstop⟩⟩⟩⟩⟩⟩
  · exact ⟨s, .ignored (.inl hs), hp, trivial⟩
  · exact ⟨s, .ignored (.inr hs), hp, trivial⟩
  · exact ⟨_, .cdata hbody, hp, trivial⟩
  · obtain ⟨name, attributes, isEmpty, s, rfl, hs, hp⟩ := opening?_spells h
    exact ⟨s, hs, hp, trivial⟩
  · exact ⟨_, .closing hname hgap, hp, trivial⟩
  · exact ⟨run, .text hne hlt, hp, hstop⟩

/-! ### Which token it is

The readers are tried in a fixed order. What a token begins with rules out those tried before its
own. -/

/-- No plain characters are read where no section is opened. -/
theorem cdata?_eq_none (h : stripLiteral? "<![CDATA[".toList c.rest = none) : cdata? c = none := by
  rw [cdata?, enclosed?_eq_none h]
  rfl

/-- An opening tag begins with an angle bracket and the first character of a name. -/
theorem exists_of_opening? {t : Token} (h : opening? c = some (t, d)) :
    ∃ x rest, c.rest = '<' :: x :: rest ∧ isNameStart x := by
  obtain ⟨name, _, _, _, rfl, hs, hp⟩ := opening?_spells h
  cases hs with
  | opening hname _ _ =>
    obtain ⟨x, more, hcons, hx, -⟩ := hname.exists_cons
    rw [hcons] at hp
    exact ⟨x, _, hp.1, hx⟩

/-- No tag is opened by a bracket with no name behind it. -/
theorem opening?_eq_none {x : Char} {rest : List Char} (hrest : c.rest = '<' :: x :: rest)
    (hx : isNameStart x = false) : opening? c = none := by
  refine Option.eq_none_iff_forall_ne_some.mpr fun p hp => ?_
  obtain ⟨y, _, hrest', hy⟩ := exists_of_opening? hp
  rw [hrest] at hrest'
  obtain ⟨rfl, -⟩ := List.cons.inj (List.cons.inj hrest').2
  exact ne_of_isNameStart hy hx rfl

/-- Where no angle bracket stands, there is no tag. -/
theorem eq_none_of_head_ne {x : Char} {rest : List Char} (hrest : c.rest = x :: rest)
    (hx : x ≠ '<') :
    c.comment? = none ∧ c.instruction? = none ∧ cdata? c = none ∧ opening? c = none ∧
      closing? c = none := by
  have hstrip : ∀ mark, stripLiteral? ('<' :: mark) c.rest = none := fun mark => by
    rw [hrest, stripLiteral?, if_neg (Ne.symm hx)]
  refine ⟨comment?_eq_none (hstrip _), instruction?_eq_none (hstrip _), cdata?_eq_none (hstrip _),
    Option.eq_none_iff_forall_ne_some.mpr fun p hp => ?_,
    Option.eq_none_iff_forall_ne_some.mpr fun p hp => ?_⟩
  · obtain ⟨y, _, hrest', -⟩ := exists_of_opening? hp
    rw [hrest] at hrest'
    exact hx (List.cons.inj hrest').1
  · obtain ⟨t, e⟩ := p
    obtain ⟨name, gap, -, -, -, hp⟩ := closing?_eq_some_iff.mp hp
    have hrest' := hp.1
    rw [hrest] at hrest'
    exact hx (List.cons.inj hrest').1

/-- A token that is spelt, and cannot be longer, is read next. -/
theorem next?_eq {t : Token} {s : List Char} (h : t.Spells c.line s) (hp : c.Passes s d)
    (hmax : t.Maximal d.rest) : next? c = some (t, d) := by
  -- the kinds of tokens are tried in turn, and those in front of the right one begin with other
  -- texts
  cases h with
  | ignored h =>
    rcases h with hs | hs
    · have h₁ : c.comment? = some d := comment?_eq_some_iff.mpr ⟨s, hs, hp⟩
      rw [next?, h₁]
      rfl
    · have h₂ : c.instruction? = some d := instruction?_eq_some_iff.mpr ⟨s, hs, hp⟩
      obtain ⟨body, -, rfl⟩ := hs
      have h₁ : c.comment? = none := comment?_eq_none (by rw [hp.1]; rfl)
      rw [next?, h₁, h₂]
      rfl
  | cdata hbody =>
    have h₁ : c.comment? = none := comment?_eq_none (by rw [hp.1]; rfl)
    have h₂ : c.instruction? = none := instruction?_eq_none (by rw [hp.1]; rfl)
    have h₃ := cdata?_eq_some_iff.mpr ⟨_, rfl, hbody, hp⟩
    rw [next?, h₁, h₂, h₃]
    rfl
  | @opening name attributes s gap isEmpty hname hs hgap =>
    have h₄ := opening?_eq hname hs hgap hp
    -- a name begins behind the bracket, and neither mark that could be meant there begins a name
    obtain ⟨x, rest, hrest, hx⟩ := exists_of_opening? h₄
    have hbang : '!' ≠ x := ne_of_isNameStart hx (by decide)
    have hquery : '?' ≠ x := ne_of_isNameStart hx (by decide)
    have h₁ : c.comment? = none := comment?_eq_none (by rw [hrest]; simp [stripLiteral?, hbang])
    have h₂ : c.instruction? = none :=
      instruction?_eq_none (by rw [hrest]; simp [stripLiteral?, hquery])
    have h₃ : cdata? c = none := cdata?_eq_none (by rw [hrest]; simp [stripLiteral?, hbang])
    rw [next?, h₁, h₂, h₃, h₄]
    rfl
  | @closing name gap hname hgap =>
    have h₁ : c.comment? = none := comment?_eq_none (by rw [hp.1]; rfl)
    have h₂ : c.instruction? = none := instruction?_eq_none (by rw [hp.1]; rfl)
    have h₃ : cdata? c = none := cdata?_eq_none (by rw [hp.1]; rfl)
    have h₄ : opening? c = none := opening?_eq_none hp.1 (by decide)
    have h₅ := closing?_eq_some_iff.mpr ⟨name, gap, rfl, hname, hgap, hp⟩
    rw [next?, h₁, h₂, h₃, h₄, h₅]
    rfl
  | text hne hrun =>
    have h₆ := text?_eq_some_iff.mpr ⟨s, rfl, hne, hrun, hp, hmax⟩
    -- all other tokens begin with a bracket
    rcases s with _ | ⟨x, run⟩
    · exact absurd rfl hne
    · have hx : x ≠ '<' := fun h => hrun (List.mem_cons.mpr (.inl h.symm))
      obtain ⟨h₁, h₂, h₃, h₄, h₅⟩ := eq_none_of_head_ne hp.1 hx
      rw [next?, h₁, h₂, h₃, h₄, h₅, h₆]
      rfl

/-- The next token is the one whose text stands next, with as much of it as there is. -/
theorem next?_eq_some_iff {t : Token} :
    next? c = some (t, d) ↔ ∃ s, t.Spells c.line s ∧ c.Passes s d ∧ t.Maximal d.rest :=
  ⟨next?_spells, fun ⟨_, h, hp, hmax⟩ => next?_eq h hp hmax⟩

end Token

end Dialect.Markup

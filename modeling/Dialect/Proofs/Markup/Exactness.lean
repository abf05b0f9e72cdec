import Dialect.Proofs.Markup.Rendering

/-!
# The parser is exact

A source is parsed exactly if it is a document. One way, what the open elements still demand of a
source is written down as `Closes`, and every successful run is shown to leave a text that meets the
demand. The other way, a rendering is read token by token; since the parser takes a run of text
whole while a content may break it up, the part of a run that stands before a content is carried
along until something else follows.
-/

namespace Dialect.Markup

open Cursor

/-! ## Assembling, token by token -/

namespace Element

/-- The element with more children and more text at the end. -/
def extend (e : Element) (children : List Element) (text : List Char) : Element :=
  { e with children := e.children ++ children, text := e.text ++ String.ofList text }

variable (e child : Element) (children more : List Element) (text text' : List Char)

/-- Extending an element by nothing leaves it as it is. -/
@[simp] theorem extend_nil : e.extend [] [] = e := by cases e; simp [extend]

/-- Extending an element twice extends it by both parts at once. -/
@[simp] theorem extend_extend :
    (e.extend children text).extend more text' = e.extend (children ++ more) (text ++ text') := by
  simp [extend, String.append_assoc]

/-- An element is its tag with its content put in. -/
theorem extend_tag :
    (⟨e.name, e.attributes, [], "", e.line⟩ : Element).extend e.children e.text.toList = e := by
  cases e
  simp [extend]

/-- Adding text extends an element by no children. -/
theorem addText_eq_extend : e.addText text = e.extend [] text := by simp [extend, addText]

/-- Adding a child extends an element by no text. -/
theorem addChild_eq_extend : e.addChild child = e.extend [child] [] := by simp [extend, addChild]

end Element

section Assemble

variable {current doc : Element} {outer : List Element} {rest : List Token}

/-- An opening tag is assembled if its references resolve, and then what follows is. -/
theorem assemble_opening_iff {line : Nat} {name : String} {raws : List RawAttribute}
    {isEmpty : Bool} :
    assemble current outer (.opening line name raws isEmpty :: rest) = .ok doc ↔
      ∃ as, List.Forall₂ RawAttribute.ResolvesTo raws as ∧
        (if isEmpty then assemble (current.addChild ⟨name, as, [], "", line⟩) outer rest
          else assemble ⟨name, as, [], "", line⟩ (current :: outer) rest) = .ok doc := by
  rw [assemble, bind_eq_ok_iff]
  simp only [expandAll_eq_ok_iff]

/-- A closing tag is assembled if its name is that of the innermost open element. -/
theorem assemble_closing_iff {parent : Element} {line : Nat} {name : String} :
    assemble current (parent :: outer) (.closing line name :: rest) = .ok doc ↔
      current.name = name ∧ assemble (parent.addChild current) outer rest = .ok doc := by
  rw [assemble]
  split
  · rename_i hname
    exact (and_iff_right hname).symm
  · rename_i hname
    simp [hname]

/-- A run is assembled if its references resolve. -/
theorem assemble_text_iff {line : Nat} {run : List Char} :
    assemble current outer (.text line run :: rest) = .ok doc ↔
      ∃ text, Resolves run text ∧ assemble (current.extend [] text) outer rest = .ok doc := by
  rw [assemble, bind_eq_ok_iff]
  simp only [expandAt_eq_ok_iff, Element.addText_eq_extend]

/-- Plain characters are taken as they stand. -/
theorem assemble_cdata (body : List Char) :
    assemble current outer (.cdata body :: rest) =
      assemble (current.extend [] body) outer rest := by
  rw [assemble, Element.addText_eq_extend]

/-- What is ignored leaves no trace. -/
theorem assemble_ignored :
    assemble current outer (.ignored :: rest) = assemble current outer rest := by
  rw [assemble]

end Assemble

/-- No tokens are read exactly where no element is open. -/
theorem tokensWithin?_nil_iff {depth : Nat} {c d : Cursor} :
    tokensWithin? depth c = some ([], d) ↔ depth = 0 ∧ d = c := by
  rw [tokensWithin?]
  split
  · rename_i hdepth
    simp [hdepth, eq_comm]
  · rename_i hdepth
    split
    · simp [hdepth]
    · simp [hdepth]

/-- Tokens are read one by one, as long as an element is open. -/
theorem tokensWithin?_cons_iff {depth : Nat} {c d : Cursor} {t : Token} {ts : List Token} :
    tokensWithin? depth c = some (t :: ts, d) ↔
      depth ≠ 0 ∧ ∃ e, Token.next? c = some (t, e) ∧
        tokensWithin? (t.depthAfter depth) e = some (ts, d) := by
  rw [tokensWithin?]
  split
  · rename_i hdepth
    simp [hdepth]
  · rename_i hdepth
    split
    · rename_i hnone
      simp [hnone]
    · rename_i t' e hnext
      simp only [hnext, Option.map_eq_some_iff, Prod.exists, Prod.mk.injEq, List.cons.injEq,
        Option.some.injEq]
      constructor
      · rintro ⟨ts', d', h, ⟨rfl, rfl⟩, rfl⟩
        exact ⟨hdepth, e, ⟨rfl, rfl⟩, h⟩
      · rintro ⟨-, _, ⟨rfl, rfl⟩, h⟩
        exact ⟨ts, d, h, ⟨rfl, rfl⟩, rfl⟩

/-! ## From tokens to a document -/

/-- What the open elements demand of a text from a place on `line`: the rest of the content of each
and the tag that closes it, from the innermost outwards, so that `doc` is left. -/
def Closes (doc : Element) : Nat → Element → List Element → List Char → Prop
  | _, current, [], s => s = [] ∧ doc = current
  | line, current, parent :: outer, s =>
    ∃ children text content close endLine more, Element.Contains Eq line children text content ∧
      (Token.closing endLine current.name).Spells endLine close ∧
      Closes doc (line + (content ++ close).count '\n')
        (parent.addChild (current.extend children text)) outer more ∧
      s = content ++ (close ++ more)

section Sound

variable {doc current : Element} {outer : List Element} {line : Nat} {s more : List Char}

/-- A text in front adds to the content of the innermost element. -/
theorem Closes.prepend {parent current' : Element}
    (h : Closes doc (line + s.count '\n') current' (parent :: outer) more)
    (hname : current'.name = current.name)
    (hcontent : ∀ {children text content},
      Element.Contains Eq (line + s.count '\n') children text content →
        ∃ children' text', Element.Contains Eq line children' text' (s ++ content) ∧
          current'.extend children text = current.extend children' text') :
    Closes doc line current (parent :: outer) (s ++ more) := by
  obtain ⟨children, text, content, close, endLine, rest, hc, hclose, hrest, rfl⟩ := h
  obtain ⟨children', text', hc', heq⟩ := hcontent hc
  rw [hname] at hclose
  rw [heq] at hrest
  refine ⟨children', text', s ++ content, close, endLine, rest, hc', hclose, ?_, ?_⟩
  · rw [List.append_assoc, List.count_append, ← Nat.add_assoc]
    exact hrest
  · rw [List.append_assoc]

/-- Behind an opening tag stands the rest of its element, and then what is demanded of the text if
that element is taken for granted. -/
theorem exists_renders_of_opening {c e d : Cursor} {name : String} {raws : List RawAttribute}
    {isEmpty : Bool} {ts : List Token}
    (hs : (Token.opening c.line name raws isEmpty).Spells c.line s) (hp : c.Passes s e)
    (hdoc : assemble current outer (.opening c.line name raws isEmpty :: ts) = .ok doc)
    (hts : tokensWithin? ((Token.opening c.line name raws isEmpty).depthAfter outer.length) e =
      some (ts, d))
    (hread : ∀ {current outer}, tokensWithin? outer.length e = some (ts, d) →
      assemble current outer ts = .ok doc →
        ∃ more, e.Passes more d ∧ Closes doc e.line current outer more) :
    ∃ child inner rest, Element.Renders Eq c.line child (s ++ inner) ∧
      e.Passes (inner ++ rest) d ∧
        Closes doc (c.line + (s ++ inner).count '\n') (current.addChild child) outer rest := by
  obtain ⟨as, has, hdoc⟩ := assemble_opening_iff.mp hdoc
  cases isEmpty with
  | true =>
    obtain ⟨more, hq, hcloses⟩ := hread hts hdoc
    rw [hp.line_eq] at hcloses
    -- the element is whole, and what is behind it belongs to the one that is open
    refine ⟨⟨name, as, [], "", c.line⟩, [], more, ?_, hq, ?_⟩
    · rw [List.append_nil]
      exact .empty rfl hs has rfl rfl
    · rw [List.append_nil]
      exact hcloses
  | false =>
    obtain ⟨more, hq, hcloses⟩ := @hread _ (current :: outer) hts hdoc
    rw [hp.line_eq] at hcloses
    -- what is demanded behind the tag is split where the new element is closed
    obtain ⟨children, text, content, close, endLine, rest, hc, hclose, hrest, rfl⟩ := hcloses
    refine ⟨Element.extend ⟨name, as, [], "", c.line⟩ children text, content ++ close, rest,
      .paired rfl hs has ?_ hclose, ?_, ?_⟩
    · simpa [Element.extend] using hc
    · rw [List.append_assoc]
      exact hq
    · rw [List.count_append, ← Nat.add_assoc]
      exact hrest

/-- Tokens that are read and assembled come from a text that the open elements demand. -/
theorem closes_of_tokens {ts : List Token} {c d : Cursor}
    (hts : tokensWithin? outer.length c = some (ts, d))
    (hdoc : assemble current outer ts = .ok doc) :
    ∃ s, c.Passes s d ∧ Closes doc c.line current outer s := by
  -- on the tokens; each of them prepends its spelling to what the ones behind it demand
  induction ts generalizing c current outer with
  | nil =>
    -- no token is left only where no element is open
    obtain ⟨hlen, rfl⟩ := tokensWithin?_nil_iff.mp hts
    obtain rfl := List.length_eq_zero_iff.mp hlen
    exact ⟨[], .refl d, rfl, (Except.ok.inj hdoc).symm⟩
  | cons t ts ih =>
    -- there is an open element as long as there are tokens
    obtain ⟨hlen, e, hnext, hts⟩ := tokensWithin?_cons_iff.mp hts
    obtain ⟨parent, outer, rfl⟩ := List.exists_cons_of_ne_nil (mt List.length_eq_zero_iff.mpr hlen)
    obtain ⟨s, hs, hp, -⟩ := Token.next?_eq_some_iff.mp hnext
    cases hs with
    | ignored h =>
      rw [assemble_ignored] at hdoc
      obtain ⟨more, hq, hcloses⟩ := ih hts hdoc
      rw [hp.line_eq] at hcloses
      refine ⟨s ++ more, hp.trans hq, hcloses.prepend rfl fun hc => ?_⟩
      exact ⟨_, _, .ignored (.ignored h) hc, rfl⟩
    | cdata hbody =>
      rw [assemble_cdata] at hdoc
      obtain ⟨more, hq, hcloses⟩ := ih hts hdoc
      rw [hp.line_eq] at hcloses
      refine ⟨_, hp.trans hq, hcloses.prepend rfl fun hc => ?_⟩
      exact ⟨_, _, .cdata (.cdata hbody) hc, Element.extend_extend ..⟩
    | text hne hrun =>
      obtain ⟨text, htext, hdoc⟩ := assemble_text_iff.mp hdoc
      obtain ⟨more, hq, hcloses⟩ := ih hts hdoc
      rw [hp.line_eq] at hcloses
      refine ⟨_, hp.trans hq, hcloses.prepend rfl fun hc => ?_⟩
      exact ⟨_, _, .text (.text hne hrun) htext hc, Element.extend_extend ..⟩
    | closing hname hgap =>
      -- the content of the innermost element ends here, and its parent goes on
      obtain ⟨heq, hdoc⟩ := assemble_closing_iff.mp hdoc
      obtain ⟨more, hq, hcloses⟩ := ih hts hdoc
      subst heq
      rw [hp.line_eq] at hcloses
      refine ⟨_, hp.trans hq, [], [], [], _, c.line, more, .nil, .closing hname hgap, ?_, rfl⟩
      rw [Element.extend_nil]
      exact hcloses
    | opening hname hraws hgap =>
      -- the element that is opened is one child, and its parent goes on behind it
      obtain ⟨child, inner, rest, hchild, hq, hrest⟩ :=
        exists_renders_of_opening (.opening hname hraws hgap) hp hdoc hts ih
      refine ⟨_, hp.trans hq, ?_⟩
      rw [← List.append_assoc]
      refine hrest.prepend rfl fun hc => ?_
      exact ⟨_, _, .child hchild hc, by rw [Element.addChild_eq_extend, Element.extend_extend]; rfl⟩

end Sound

/-! ## From a document to tokens -/

/-- From `c`, inside `current` and the elements around it, the tokens up to the end of the outermost
element lead to `d`, and assembling them makes `doc`. -/
def Finishes (c : Cursor) (current : Element) (outer : List Element) (doc : Element) (d : Cursor) :
    Prop :=
  ∃ ts, tokensWithin? outer.length c = some (ts, d) ∧ assemble current outer ts = .ok doc

/-- An opening tag is what is read next where there is one. -/
theorem Token.next?_of_opening? {c d : Cursor} {t : Token} (h : Token.opening? c = some (t, d)) :
    Token.next? c = some (t, d) := by
  obtain ⟨_, _, _, s, rfl, hs, hp⟩ := Token.opening?_spells h
  exact Token.next?_eq hs hp trivial

/-- Every token but a run of text begins with an angle bracket. -/
theorem Token.Spells.stops {line : Nat} {t : Token} {s : List Char} (h : t.Spells line s)
    (ht : ∀ l run, t ≠ .text l run) (rest : List Char) : Stops (· != '<') (s ++ rest) := by
  cases h with
  | ignored h => rcases h with ⟨_, -, rfl⟩ | ⟨_, -, rfl⟩ <;> exact stops_cons.mpr rfl
  | cdata _ => exact stops_cons.mpr rfl
  | opening _ _ _ => exact stops_cons.mpr rfl
  | closing _ _ => exact stops_cons.mpr rfl
  | text _ _ => exact absurd rfl (ht _ _)

/-- An element begins with a bracket, where a run of text stops. -/
theorem Element.Renders.stops {line : Nat} {e : Element} {s : List Char}
    (h : e.Renders Eq line s) (rest : List Char) : Stops (· != '<') (s ++ rest) := by
  cases h with
  | empty _ hs _ _ _ => exact hs.stops (by simp) rest
  | paired _ hs _ _ _ =>
    rw [List.append_assoc]
    exact hs.stops (by simp) _

section Complete

variable {c d out : Cursor} {current doc : Element} {outer : List Element}

/-- One token on. -/
theorem Finishes.of_next {t : Token} {ts : List Token} (hne : outer ≠ [])
    (hnext : Token.next? c = some (t, d))
    (hts : tokensWithin? (t.depthAfter outer.length) d = some (ts, out))
    (hdoc : assemble current outer (t :: ts) = .ok doc) : Finishes c current outer doc out := by
  have hlen : outer.length ≠ 0 := mt List.length_eq_zero_iff.mp hne
  exact ⟨t :: ts, tokensWithin?_cons_iff.mpr ⟨hlen, d, hnext, hts⟩, hdoc⟩

/-- A run of text may have been broken off at its end; what was is added before anything else. -/
theorem Finishes.of_text {run text : List Char} (hne : outer ≠ []) (hrun : '<' ∉ run)
    (htext : Resolves run text) (hp : c.Passes run d) (hstop : Stops (· != '<') d.rest)
    (h : Finishes d (current.extend [] text) outer doc out) : Finishes c current outer doc out := by
  rcases run with _ | ⟨x, run⟩
  · obtain rfl := passes_nil_iff.mp hp
    cases htext
    rw [Element.extend_nil] at h
    exact h
  · obtain ⟨ts, hts, hdoc⟩ := h
    have hnext := Token.next?_eq (.text (List.cons_ne_nil x run) hrun) hp hstop
    exact .of_next hne hnext hts (assemble_text_iff.mpr ⟨text, htext, hdoc⟩)

/-- A token that is no text stands behind the end of a run. -/
theorem Finishes.of_token {t : Token} {ts : List Token} {run text s : List Char}
    (hne : outer ≠ []) (hrun : '<' ∉ run) (htext : Resolves run text)
    (hs : t.Spells (c.line + run.count '\n') s) (ht : ∀ l run, t ≠ .text l run)
    (hp : c.Passes (run ++ s) d)
    (hts : tokensWithin? (t.depthAfter outer.length) d = some (ts, out))
    (hdoc : assemble (current.extend [] text) outer (t :: ts) = .ok doc) :
    Finishes c current outer doc out := by
  obtain ⟨e, hq, hr⟩ := passes_append_iff.mp hp
  have hmaximal : t.Maximal d.rest := by
    cases t with
    | text l run => exact absurd rfl (ht l run)
    | _ => trivial
  have hnext : Token.next? e = some (t, d) :=
    Token.next?_eq (by rw [hq.line_eq]; exact hs) hr hmaximal
  refine .of_text hne hrun htext hq ?_ (.of_next hne hnext hts hdoc)
  rw [hr.1]
  exact hs.stops ht _

mutual

/-- An element is read as one more child, whatever stands around it. -/
theorem Element.Renders.opens {e : Element} {line : Nat} {s : List Char}
    (h : e.Renders Eq line s) {c d out : Cursor} {current doc : Element} {outer : List Element}
    (hline : c.line = line) (hp : c.Passes s d)
    (hfin : Finishes d (current.addChild e) outer doc out) :
    ∃ t f ts, Token.opening? c = some (t, f) ∧
      tokensWithin? (t.depthAfter outer.length) f = some (ts, out) ∧
      assemble current outer (t :: ts) = .ok doc := by
  match h with
  | .empty hbegins hs hattributes hchildren htext =>
    obtain ⟨ts, hts, hdoc⟩ := hfin
    -- the element is no more than its tag, and is whole once that is read
    have htag : (⟨e.name, e.attributes, [], "", c.line⟩ : Element) = e := by
      have htag := e.extend_tag
      rw [hchildren, htext, ← hbegins, ← hline] at htag
      simpa using htag
    subst hline
    cases hs with
    | opening hname hraws hgap =>
      refine ⟨_, d, ts, Token.opening?_eq hname hraws hgap hp, hts, ?_⟩
      refine assemble_opening_iff.mpr ⟨e.attributes, hattributes, ?_⟩
      rw [htag]
      exact hdoc
  | .paired hbegins hs hattributes hcontent hclose =>
    obtain ⟨c₁, p₁, hp⟩ := passes_append_iff.mp hp
    obtain ⟨c₂, p₂, p₃⟩ := passes_append_iff.mp hp
    have hline₁ := p₁.line_eq
    rw [hline] at hline₁
    -- the closing tag bounds the text in front of it, and ends the element
    have hstop : Stops (· != '<') c₂.rest := by
      rw [p₃.1]
      exact hclose.stops (by simp) _
    have hcloses : Finishes c₂ e (current :: outer) doc out := by
      obtain ⟨ts, hts, hdoc⟩ := hfin
      cases hclose with
      | closing hname hgap =>
        exact .of_next (List.cons_ne_nil current outer)
          (Token.next?_eq (.closing hname hgap) p₃ trivial) hts
          (assemble_closing_iff.mpr ⟨rfl, hdoc⟩)
    have htag := e.extend_tag
    rw [← hbegins, ← hline] at htag
    -- the content is read with the element open, up to its closing tag
    obtain ⟨ts, hts, hdoc⟩ := hcontent.finishes (List.cons_ne_nil current outer)
      (List.not_mem_nil : '<' ∉ []) .nil hline₁ p₂ hstop
      (by rw [List.nil_append, htag]; exact hcloses)
    subst hline
    cases hs with
    | opening hname hraws hgap =>
      refine ⟨_, c₁, ts, Token.opening?_eq hname hraws hgap p₁, hts, ?_⟩
      exact assemble_opening_iff.mpr ⟨e.attributes, hattributes, hdoc⟩

/-- A content is read, with the end of a run of text in front of it, as more children and text of
the element it stands in. -/
theorem Element.Contains.finishes {line : Nat} {children : List Element} {text s : List Char}
    (h : Element.Contains Eq line children text s) {c d out : Cursor} {current doc : Element}
    {outer : List Element} {run resolved : List Char} (hne : outer ≠ []) (hrun : '<' ∉ run)
    (hresolved : Resolves run resolved) (hline : c.line + run.count '\n' = line)
    (hp : c.Passes (run ++ s) d) (hstop : Stops (· != '<') d.rest)
    (hfin : Finishes d (current.extend children (resolved ++ text)) outer doc out) :
    Finishes c current outer doc out := by
  -- on the content, from the left. A run of text is not read as a token before it ends, so `run`
  -- holds what has been passed over since the last token; each case either adds to it or has it
  -- read in front of a token.
  match h with
  | .nil =>
    rw [List.append_nil] at hp hfin
    -- the content ends, and the run with it
    exact .of_text hne hrun hresolved hp hstop hfin
  | .ignored hs h =>
    rw [← List.append_assoc] at hp
    obtain ⟨e, p₁, p₂⟩ := passes_append_iff.mp hp
    -- the run ends, adds its text, and what is ignored adds nothing
    have hfin' : Finishes d ((current.extend [] resolved).extend children text) outer doc out := by
      rw [Element.extend_extend]
      exact hfin
    obtain ⟨ts, hts, hdoc⟩ := h.finishes hne (List.not_mem_nil : '<' ∉ []) .nil
      (by rw [p₁.line_eq, List.count_append, ← Nat.add_assoc, hline]; rfl) p₂ hstop hfin'
    rw [← hline] at hs
    exact .of_token hne hrun hresolved hs (by simp) p₁ hts (assemble_ignored.trans hdoc)
  | @Element.Contains.cdata _ _ children text body _ _ hs h =>
    rw [← List.append_assoc] at hp
    obtain ⟨e, p₁, p₂⟩ := passes_append_iff.mp hp
    -- the run ends, and the section adds its text behind that of the run
    have hfin' : Finishes d (((current.extend [] resolved).extend [] body).extend children text)
        outer doc out := by
      rw [Element.extend_extend, Element.extend_extend]
      exact hfin
    obtain ⟨ts, hts, hdoc⟩ := h.finishes hne (List.not_mem_nil : '<' ∉ []) .nil
      (by rw [p₁.line_eq, List.count_append, ← Nat.add_assoc, hline]; rfl) p₂ hstop hfin'
    rw [← hline] at hs
    exact .of_token hne hrun hresolved hs (by simp) p₁ hts ((assemble_cdata body).trans hdoc)
  | .text hs hresolved' h =>
    cases hs with
    | text _ hrun' =>
      -- the run goes on with this text
      refine h.finishes hne ?_ (hresolved.append hresolved') ?_ ?_ hstop ?_
      · exact fun hmem => (List.mem_append.mp hmem).elim hrun hrun'
      · rw [List.count_append, ← Nat.add_assoc, hline]
      · rw [List.append_assoc]
        exact hp
      · rw [List.append_assoc]
        exact hfin
  | @Element.Contains.child _ _ e children text _ _ he h =>
    obtain ⟨c₁, p₁, hp⟩ := passes_append_iff.mp hp
    obtain ⟨c₂, p₂, p₃⟩ := passes_append_iff.mp hp
    have hline₁ : c₁.line = line := p₁.line_eq.trans hline
    -- the run ends at the child, which is read from its opening tag on
    have hfin' : Finishes d (((current.extend [] resolved).addChild e).extend children text)
        outer doc out := by
      rw [Element.addChild_eq_extend, Element.extend_extend, Element.extend_extend]
      simpa using hfin
    refine .of_text hne hrun hresolved p₁ (by rw [p₂.1]; exact he.stops _) ?_
    obtain ⟨t, f, ts, hopening, hts, hdoc⟩ := he.opens hline₁ p₂
      (h.finishes hne (List.not_mem_nil : '<' ∉ []) .nil (by rw [p₂.line_eq, hline₁]; rfl) p₃ hstop
        hfin')
    exact .of_next hne (Token.next?_of_opening? hopening) hts hdoc

end

end Complete

/-! ## Whole documents -/

/-- A source has tokens if there is a root between what may stand around it. -/
theorem tokens?_eq_some_iff {source : List Char} {tokens : List Token} :
    tokens? source = some tokens ↔
      ∃ t c ts d, Token.opening? (Cursor.prolog ⟨1, source⟩) = some (t, c) ∧
        tokensWithin? (t.depthAfter 0) c = some (ts, d) ∧ d.miscellany.rest = [] ∧
        tokens = t :: ts := by
  simp only [tokens?, Option.bind_eq_bind, Option.bind_eq_some_iff, Prod.exists,
    Option.ite_none_right_eq_some, Option.some.injEq]
  constructor
  · rintro ⟨t, c, hopening, ts, d, hts, hend, rfl⟩
    exact ⟨t, c, ts, d, hopening, hts, hend, rfl⟩
  · rintro ⟨t, c, ts, d, hopening, hts, hend, rfl⟩
    exact ⟨t, c, hopening, ts, d, hts, hend, rfl⟩

/-- The root element of a source is what is left of its tokens. -/
theorem parse_eq_ok_iff_assemble {source : String} {root : Element} :
    parse source = .ok root ↔
      ∃ tokens, tokens? source.toList = some tokens ∧
        ∃ document, assemble documentNode [] tokens = .ok document ∧
          document.children.head? = some root := by
  rw [parse]
  rcases htokens : tokens? source.toList with _ | tokens
  · simp
  · simp only [bind_eq_ok_iff, Option.some.injEq, exists_eq_left']
    refine exists_congr fun document => and_congr_right fun _ => ?_
    rcases document.children with _ | ⟨e, rest⟩
    · simp
    · simp

/-- A source that is parsed is a rendering of the tree that comes out. -/
theorem isRootOf_of_parse {source : String} {root : Element} (h : parse source = .ok root) :
    root.IsRootOf Eq source.toList := by
  obtain ⟨tokens, htokens, document, hdoc, hroot⟩ := parse_eq_ok_iff_assemble.mp h
  obtain ⟨t, c, ts, d, hopening, hts, hend, rfl⟩ := tokens?_eq_some_iff.mp htokens
  obtain ⟨front, hfront, hp⟩ := prolog_spells ⟨1, source.toList⟩
  obtain ⟨back, hback, hr⟩ := d.miscellany_spells
  obtain ⟨name, raws, isEmpty, s, rfl, hs, hq⟩ := Token.opening?_spells hopening
  -- the root is the child that the first tag opens, and nothing is demanded behind it
  obtain ⟨e, inner, rest, he, ht, rfl, rfl⟩ :=
    exists_renders_of_opening hs hq hdoc hts closes_of_tokens
  obtain rfl := Option.some.inj hroot
  rw [hp.line_eq] at he
  refine ⟨front, s ++ inner, back, hfront, he, hback, ?_⟩
  have hsource := (hp.trans (hq.trans (ht.trans hr))).1
  rw [hend] at hsource
  simpa using hsource

/-- A rendering of a tree is parsed into the tree. -/
theorem parse_of_isRootOf {source : String} {root : Element}
    (h : root.IsRootOf Eq source.toList) : parse source = .ok root := by
  obtain ⟨front, s, back, hfront, hs, hback, hsource⟩ := h
  have hall : Cursor.Passes ⟨1, source.toList⟩ (front ++ (s ++ back))
      (Cursor.after ⟨1, source.toList⟩ (front ++ (s ++ back)) []) :=
    passes_after (by rw [List.append_nil]; exact hsource)
  obtain ⟨c, hp, hall⟩ := passes_append_iff.mp hall
  obtain ⟨d, hq, hr⟩ := passes_append_iff.mp hall
  -- behind the root nothing is left to read, so what is assembled is the root alone
  have hfin : Finishes d (documentNode.addChild root) [] (documentNode.addChild root) d :=
    ⟨[], tokensWithin?_nil_iff.mpr ⟨rfl, rfl⟩, rfl⟩
  obtain ⟨t, f, ts, hopening, hts, hdoc⟩ := hs.opens hp.line_eq hq hfin
  obtain ⟨x, rest, hrest, hx⟩ := Token.exists_of_opening? hopening
  have hend : d.miscellany.rest = [] := by
    have hnone : Cursor.miscellany? (Cursor.after ⟨1, source.toList⟩ (front ++ (s ++ back)) []) =
        none := miscellany?_eq_none rfl rfl (stops_nil _)
    rw [miscellany_eq hback hr hnone]
    rfl
  have htokens : tokens? source.toList = some (t :: ts) := by
    refine tokens?_eq_some_iff.mpr ⟨t, f, ts, d, ?_, hts, hend, rfl⟩
    rw [prolog_eq hfront hp hrest hx]
    exact hopening
  exact parse_eq_ok_iff_assemble.mpr ⟨t :: ts, htokens, _, hdoc, rfl⟩

/-- The parser finds the root element of a document, on the lines where its elements begin, and
nothing in any other source. -/
theorem parse_eq_ok_iff {source : String} {root : Element} :
    parse source = .ok root ↔ root.IsRootOf Eq source.toList :=
  ⟨isRootOf_of_parse, parse_of_isRootOf⟩

/-- **The parser is exact.** A source is parsed into a tree, its lines aside, exactly if the source
is a document with that tree for its root element. -/
theorem exists_parse_iff_isRootOf (source : String) (root : Element) :
    (∃ root', parse source = .ok root' ∧ root'.unlined = root.unlined) ↔
      root.IsRootOf Element.anyLine source.toList := by
  rw [Element.isRootOf_anyLine_iff]
  constructor
  · rintro ⟨root', hroot', heq⟩
    exact ⟨root', heq, parse_eq_ok_iff.mp hroot'⟩
  · rintro ⟨root', heq, hroot'⟩
    exact ⟨root', parse_eq_ok_iff.mpr hroot', heq⟩

end Dialect.Markup

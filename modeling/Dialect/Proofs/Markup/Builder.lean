import Dialect.Proofs.Markup.Written

/-!
# Building the tree

The tree of a document, by recursion on the document (`Written.build`). The parser keeps the open
elements on a stack and takes one token at a time; of the tokens of an element it makes what the
recursion makes of the element, whatever is open around it and whatever follows
(`Written.assemble_tokens`). So a source that is the text of a document is parsed into the tree of
that document (`parse_eq_build`), and the parser fails as the building does: with the first of the
document's pieces, in the order of the source, that has a fault (`Written.build_eq_error_iff`).
-/

namespace Dialect.Markup

/-! ## The tree of a document -/

/-- The element as its opening tag has it, nothing in it yet. -/
def Tag.build (before : List Char) (tag : Tag) : Except Fault Element := do
  let attributes ← (tag.raws before).mapM RawAttribute.expand
  return ⟨tag.name, attributes, [], "", lineBehind before⟩

/-- The tag closes the element that was opened under the name `opened`. -/
def ClosingTag.check (before : List Char) (opened : String) (tag : ClosingTag) :
    Except Fault Unit :=
  if opened = tag.name then .ok ()
  else .error (.mismatchedTag opened tag.name (lineBehind before))

/-- The text of a run. -/
def Run.build (before : List Char) (run : Run) : Except Fault (List Char) :=
  expandAt (lineBehind before) run.chars

mutual

/-- The tree of an element with `before` in front of it. -/
def Written.build (before : List Char) : Written → Except Fault Element
  | .empty tag => tag.build before
  | .paired tag content close => do
    let e ← tag.build before
    let inside ← content.build (before ++ tag.text false)
    close.check (before ++ tag.text false ++ content.text) e.name
    return e.extend inside.1 inside.2

/-- The child elements of a content and its text. -/
def Content.build (before : List Char) : Content → Except Fault (List Element × List Char)
  | .last run => do
    let text ← run.build before
    return ([], text)
  | .inert run item rest => do
    let text ← run.build before
    let behind ← rest.build (before ++ run.chars ++ item.text)
    return (behind.1, text ++ (item.body ++ behind.2))
  | .child run e rest => do
    let text ← run.build before
    let child ← e.build (before ++ run.chars)
    let behind ← rest.build (before ++ run.chars ++ e.text)
    return (child :: behind.1, text ++ behind.2)

end

/-! ## Taking in the tokens of a document -/

section Assemble

variable {before : List Char} {current : Element} {outer : List Element} {rest : List Token}

/-- The token of an opening tag adds an element, or opens one. -/
theorem Tag.assemble_token (tag : Tag) (isEmpty : Bool) :
    assemble current outer (tag.token before isEmpty :: rest) =
      tag.build before >>= fun e =>
        if isEmpty then assemble (current.addChild e) outer rest
        else assemble e (current :: outer) rest := by
  rw [token, assemble, build, bind_assoc]
  rfl

/-- The token of a closing tag closes the innermost open element, if it is called that. -/
theorem ClosingTag.assemble_token {parent : Element} (tag : ClosingTag) :
    assemble current (parent :: outer) (tag.token before :: rest) =
      tag.check before current.name >>= fun _ => assemble (parent.addChild current) outer rest := by
  rw [token, assemble, check]
  split
  · rfl
  · rfl

/-- The token of a run, or none for an empty run, adds the text of the run. -/
theorem Run.assemble_tokens (run : Run) :
    assemble current outer (run.tokens before ++ rest) =
      run.build before >>= fun text => assemble (current.extend [] text) outer rest := by
  rw [tokens, build]
  split
  · next hnil =>
    rw [hnil, expandAt_eq_ok_iff.mpr .nil]
    simp [Bind.bind, Except.bind]
  · simp only [List.singleton_append, assemble, Element.addText_eq_extend]

/-- Of what is not text and no tag, only plain characters leave a trace. -/
theorem Inert.assemble_token (item : Inert) :
    assemble current outer (item.token :: rest) =
      assemble (current.extend [] item.body) outer rest := by
  cases item with
  | ignored s h =>
    rw [token, body, assemble_ignored, Element.extend_nil]
  | cdata body h => exact assemble_cdata body

mutual

/-- An element is taken in as one more child of the element it stands in. -/
theorem Written.assemble_tokens (e : Written) (before : List Char) (current : Element)
    (outer : List Element) (rest : List Token) :
    assemble current outer (e.tokens before ++ rest) =
      e.build before >>= fun child => assemble (current.addChild child) outer rest := by
  match e with
  | .empty tag =>
    rw [Written.tokens, Written.build, List.singleton_append, tag.assemble_token]
    rfl
  | .paired tag content close =>
    rw [Written.tokens, Written.build, List.cons_append, List.append_assoc, tag.assemble_token]
    simp only [Bool.false_eq_true, if_false, content.assemble_tokens, List.singleton_append,
      close.assemble_token, bind_assoc, pure_bind]
    rfl

/-- A content is taken in as more children and more text of the element it stands in. -/
theorem Content.assemble_tokens (content : Content) (before : List Char) (current : Element)
    (outer : List Element) (rest : List Token) :
    assemble current outer (content.tokens before ++ rest) =
      content.build before >>= fun inside =>
        assemble (current.extend inside.1 inside.2) outer rest := by
  match content with
  | .last run =>
    rw [Content.tokens, Content.build, run.assemble_tokens, bind_assoc]
    rfl
  | .inert run item more =>
    simp only [Content.tokens, Content.build, List.append_assoc, List.cons_append,
      run.assemble_tokens, item.assemble_token, more.assemble_tokens, bind_assoc, pure_bind,
      Element.extend_extend, List.nil_append]
  | .child run e more =>
    simp only [Content.tokens, Content.build, List.append_assoc, run.assemble_tokens,
      e.assemble_tokens, more.assemble_tokens, bind_assoc, pure_bind, Element.addChild_eq_extend,
      Element.extend_extend, List.nil_append, List.append_nil, List.singleton_append]

end

end Assemble

/-- The text of a document is parsed into the document's tree. -/
theorem parse_eq_build {source : String} {d : WrittenDocument} (h : d.text = source.toList) :
    parse source = d.root.build d.front := by
  have htokens := d.root.assemble_tokens d.front documentNode [] []
  rw [List.append_nil] at htokens
  rw [parse, tokens?_eq_some_iff_text.mpr ⟨d, h, rfl⟩]
  simp only [WrittenDocument.tokens, htokens, bind_assoc, assemble]
  conv => rhs; rw [← bind_pure (d.root.build d.front)]
  rfl

/-! ## What building fails with -/

/-- A part of a document that may be at fault. -/
inductive Piece where
  /-- A run of text behind `anchor`, or the value of an attribute with `lead` between it and
  `anchor`. Its faults are reported on the line on which the run or the attribute begins, with the
  blanks in front of it. -/
  | raw (anchor lead s : List Char)
  /-- A tag with `front` in front of it, to close the element opened under the name `opened`. -/
  | closing (front : List Char) (opened : String) (tag : ClosingTag)

/-- What is reported for the piece if it is at fault. -/
def Piece.Fails : Piece → Fault → Prop
  | .raw anchor _ s, fault => expandAt (lineBehind anchor) s = .error fault
  | .closing front opened tag, fault => tag.check front opened = .error fault

def WrittenAttribute.pieces (before : List Char) : List WrittenAttribute → List Piece
  | [] => []
  | a :: as => .raw before a.front a.value :: pieces (before ++ a.text) as

def Tag.pieces (before : List Char) (tag : Tag) : List Piece :=
  WrittenAttribute.pieces (before ++ ("<".toList ++ tag.name.toList)) tag.attributes

def Run.piece (before : List Char) (run : Run) : Piece := .raw before [] run.chars

mutual

/-- The pieces of an element with `before` in front of it, in the order of the source. -/
def Written.pieces (before : List Char) : Written → List Piece
  | .empty tag => tag.pieces before
  | .paired tag content close =>
    tag.pieces before ++ (content.pieces (before ++ tag.text false) ++
      [.closing (before ++ tag.text false ++ content.text) tag.name close])

def Content.pieces (before : List Char) : Content → List Piece
  | .last run => [run.piece before]
  | .inert run item rest =>
    [run.piece before] ++ rest.pieces (before ++ run.chars ++ item.text)
  | .child run e rest =>
    [run.piece before] ++ (e.pieces (before ++ run.chars) ++
      rest.pieces (before ++ run.chars ++ e.text))

end

def WrittenDocument.pieces (d : WrittenDocument) : List Piece := d.root.pieces d.front

section Fails

variable {before : List Char} {fault : Fault}

/-- An attribute fails for its value alone. -/
theorem RawAttribute.expand_eq_error_iff {a : RawAttribute} :
    a.expand = .error fault ↔ expandAt a.line a.value = .error fault :=
  bind_pure_eq_error_iff

/-- Attributes fail for the first one that does. -/
theorem WrittenAttribute.expandAll_eq_error_iff (as : List WrittenAttribute) :
    (rawAll before as).mapM RawAttribute.expand = .error fault ↔
      FirstFault Piece.Fails (pieces before as) fault := by
  rw [mapM_eq_error_iff]
  induction as generalizing before with
  | nil => exact iff_of_false not_firstFault_nil not_firstFault_nil
  | cons a as ih =>
    rw [rawAll, pieces, firstFault_cons_iff, firstFault_cons_iff, ih]
    simp only [RawAttribute.expand_eq_error_iff, Piece.Fails, raw]

/-- A tag fails for the first of its attributes that does. -/
theorem Tag.build_eq_error_iff (tag : Tag) :
    tag.build before = .error fault ↔ FirstFault Piece.Fails (tag.pieces before) fault := by
  rw [build, bind_pure_eq_error_iff]
  exact WrittenAttribute.expandAll_eq_error_iff tag.attributes

/-- What a tag opens has its name, its line and nothing in it. -/
theorem Tag.exists_of_build {tag : Tag} {e : Element} (h : tag.build before = .ok e) :
    ∃ attributes, e = ⟨tag.name, attributes, [], "", lineBehind before⟩ := by
  obtain ⟨attributes, -, h⟩ := bind_eq_ok_iff.mp h
  exact ⟨attributes, (Except.ok.inj h).symm⟩

/-- A run fails as the one piece that it is. -/
theorem Run.build_eq_error_iff (run : Run) :
    run.build before = .error fault ↔ FirstFault Piece.Fails [run.piece before] fault := by
  rw [firstFault_singleton_iff]
  rfl

mutual

/-- An element cannot be built for the first of its pieces that has a fault. -/
theorem Written.build_eq_error_iff (e : Written) (before : List Char) (fault : Fault) :
    e.build before = .error fault ↔ FirstFault Piece.Fails (e.pieces before) fault := by
  match e with
  | .empty tag => exact tag.build_eq_error_iff
  | .paired tag content close =>
    refine bind_eq_error_iff_firstFault (fun _ => tag.build_eq_error_iff) fun e he => ?_
    refine bind_eq_error_iff_firstFault (content.build_eq_error_iff _) fun inside _ => ?_
    obtain ⟨attributes, rfl⟩ := tag.exists_of_build he
    rw [bind_pure_eq_error_iff, firstFault_singleton_iff]
    rfl

/-- A content cannot be built for the first of its pieces that has a fault. -/
theorem Content.build_eq_error_iff (content : Content) (before : List Char) (fault : Fault) :
    content.build before = .error fault ↔ FirstFault Piece.Fails (content.pieces before) fault := by
  match content with
  | .last run => exact bind_pure_eq_error_iff.trans run.build_eq_error_iff
  | .inert run item more =>
    refine bind_eq_error_iff_firstFault (fun _ => run.build_eq_error_iff) fun _ _ => ?_
    exact bind_pure_eq_error_iff.trans (more.build_eq_error_iff _ fault)
  | .child run e more =>
    refine bind_eq_error_iff_firstFault (fun _ => run.build_eq_error_iff) fun _ _ => ?_
    refine bind_eq_error_iff_firstFault (e.build_eq_error_iff _) fun _ _ => ?_
    exact bind_pure_eq_error_iff.trans (more.build_eq_error_iff _ fault)

end

/-- No piece fails for the grammar, which has been checked before there are pieces. -/
theorem Piece.Fails.ne_malformed {p : Piece} (h : p.Fails fault) : fault ≠ .malformed := by
  cases p with
  | raw anchor lead s =>
    obtain ⟨entity, -, rfl⟩ := mapError_eq_error_iff.mp h
    simp
  | closing front opened tag =>
    simp only [Fails, ClosingTag.check] at h
    split at h
    · simp at h
    · obtain rfl := Except.error.inj h
      simp

/-- The text of a document fails to be parsed for the first of the document's pieces that has a
fault. -/
theorem parse_eq_error_iff {source : String} {d : WrittenDocument} (h : d.text = source.toList) :
    parse source = .error fault ↔ FirstFault Piece.Fails d.pieces fault := by
  rw [parse_eq_build h]
  exact d.root.build_eq_error_iff d.front fault

/-- A source follows the grammar exactly if it is the text of a document. -/
theorem parse_eq_malformed_iff {source : String} :
    parse source = .error .malformed ↔ ∀ d : WrittenDocument, d.text ≠ source.toList := by
  constructor
  · intro h d hd
    obtain ⟨_, p, _, -, -, hp⟩ := (parse_eq_error_iff hd).mp h
    exact hp.ne_malformed rfl
  · intro h
    rcases htokens : tokens? source.toList with _ | ts
    · rw [parse, htokens]
    · obtain ⟨d, hd, -⟩ := tokens?_eq_some_iff_text.mp htokens
      exact absurd hd (h d)

end Fails

end Dialect.Markup

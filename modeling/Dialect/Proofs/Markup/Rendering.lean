import Dialect.Proofs.Markup.Prolog
import Dialect.Proofs.Markup.Reference

/-!
# Renderings of element trees

The grammar of elements and of whole documents, as a relation between a tree and the texts that
render it. The lines of a tree are subject to a rule: under `Eq` every element carries the line on
which it begins, under `anyLine` the lines are not looked at. A text renders a tree under the second
rule exactly if it renders one under the first that differs in its lines only.
-/

namespace Dialect.Markup

namespace Element

/-- The rule that says nothing about lines. -/
def anyLine (_begins _carried : Nat) : Prop := True

mutual

/-- `s`, from a place on `line`, renders the element: an empty tag, or an opening tag, a content and
a closing tag of the same name. -/
inductive Renders (rule : Nat → Nat → Prop) : Nat → Element → List Char → Prop
  | empty {line : Nat} {e : Element} {raws : List RawAttribute} {s : List Char}
      (hline : rule line e.line) (hs : (Token.opening line e.name raws true).Spells line s)
      (hattributes : List.Forall₂ RawAttribute.ResolvesTo raws e.attributes)
      (hchildren : e.children = []) (htext : e.text = "") : Renders rule line e s
  | paired {line endLine : Nat} {e : Element} {raws : List RawAttribute}
      {s content close : List Char}
      (hline : rule line e.line) (hs : (Token.opening line e.name raws false).Spells line s)
      (hattributes : List.Forall₂ RawAttribute.ResolvesTo raws e.attributes)
      (hcontent : Contains rule (line + s.count '\n') e.children e.text.toList content)
      (hclose : (Token.closing endLine e.name).Spells endLine close) :
      Renders rule line e (s ++ (content ++ close))

/-- `s`, from a place on `line`, is a content: child elements and pieces of text in any order, with
comments and instructions between them. The text is that of the runs, references resolved, and of
the CDATA sections as they stand. -/
inductive Contains (rule : Nat → Nat → Prop) : Nat → List Element → List Char → List Char → Prop
  | nil {line : Nat} : Contains rule line [] [] []
  | ignored {line : Nat} {children : List Element} {text s more : List Char}
      (hs : Token.ignored.Spells line s)
      (h : Contains rule (line + s.count '\n') children text more) :
      Contains rule line children text (s ++ more)
  | cdata {line : Nat} {children : List Element} {text body s more : List Char}
      (hs : (Token.cdata body).Spells line s)
      (h : Contains rule (line + s.count '\n') children text more) :
      Contains rule line children (body ++ text) (s ++ more)
  | text {line : Nat} {children : List Element} {text run resolved more : List Char}
      (hs : (Token.text line run).Spells line run) (hrun : Resolves run resolved)
      (h : Contains rule (line + run.count '\n') children text more) :
      Contains rule line children (resolved ++ text) (run ++ more)
  | child {line : Nat} {e : Element} {children : List Element} {text s more : List Char}
      (he : Renders rule line e s) (h : Contains rule (line + s.count '\n') children text more) :
      Contains rule line (e :: children) text (s ++ more)

end

/-- `source` is a document with the given root element. -/
def IsRootOf (rule : Nat → Nat → Prop) (root : Element) (source : List Char) : Prop :=
  ∃ front s back, IsProlog front ∧ root.Renders rule (1 + front.count '\n') s ∧
    IsMiscellany back ∧ source = front ++ (s ++ back)

/-! ## Trees up to their lines -/

mutual

/-- The tree with no lines in it. -/
def unlined : Element → Element
  | ⟨name, attributes, children, text, _⟩ => ⟨name, attributes, unlinedAll children, text, 0⟩

def unlinedAll : List Element → List Element
  | [] => []
  | e :: rest => e.unlined :: unlinedAll rest

end

/-- Trees are the same but for lines if their roots are, and the trees below them are. -/
theorem unlined_eq_iff {e e' : Element} :
    e.unlined = e'.unlined ↔ e.name = e'.name ∧ e.attributes = e'.attributes ∧
      unlinedAll e.children = unlinedAll e'.children ∧ e.text = e'.text := by
  obtain ⟨name, attributes, children, text, line⟩ := e
  obtain ⟨name', attributes', children', text', line'⟩ := e'
  simp [unlined]

/-- Forgetting lines goes child by child. -/
theorem unlinedAll_eq_map (children : List Element) :
    unlinedAll children = children.map unlined := by
  induction children with
  | nil => rfl
  | cons e rest ih => rw [unlinedAll, ih, List.map_cons]

mutual

/-- Lines may be put into a tree so that every element carries its own. -/
theorem Renders.exists_lined {line : Nat} {e : Element} {s : List Char}
    (h : e.Renders anyLine line s) : ∃ e' : Element, e'.unlined = e.unlined ∧ e'.Renders Eq line s := by
  match h with
  | .empty _ hs hattributes hchildren htext =>
    exact ⟨{ e with line := line }, unlined_eq_iff.mpr ⟨rfl, rfl, rfl, rfl⟩,
      .empty rfl hs hattributes hchildren htext⟩
  | .paired _ hs hattributes hcontent hclose =>
    obtain ⟨children, hchildren, hcontent⟩ := hcontent.exists_lined
    exact ⟨{ e with children := children, line := line },
      unlined_eq_iff.mpr ⟨rfl, rfl, hchildren, rfl⟩, .paired rfl hs hattributes hcontent hclose⟩

/-- Children rendered anywhere can be given the lines on which they stand. -/
theorem Contains.exists_lined {line : Nat} {children : List Element} {text s : List Char}
    (h : Contains anyLine line children text s) :
    ∃ children', unlinedAll children' = unlinedAll children ∧
      Contains Eq line children' text s := by
  match h with
  | .nil => exact ⟨[], rfl, .nil⟩
  | .ignored hs h =>
    obtain ⟨children, hchildren, h⟩ := h.exists_lined
    exact ⟨children, hchildren, .ignored hs h⟩
  | .cdata hs h =>
    obtain ⟨children, hchildren, h⟩ := h.exists_lined
    exact ⟨children, hchildren, .cdata hs h⟩
  | .text hs hrun h =>
    obtain ⟨children, hchildren, h⟩ := h.exists_lined
    exact ⟨children, hchildren, .text hs hrun h⟩
  | .child he h =>
    obtain ⟨e, heq, he⟩ := he.exists_lined
    obtain ⟨children, hchildren, h⟩ := h.exists_lined
    refine ⟨e :: children, ?_, .child he h⟩
    rw [unlinedAll, unlinedAll, heq, hchildren]

end

mutual

/-- Where lines are not looked at, they may be changed. -/
theorem Renders.of_unlined_eq {line : Nat} {e e' : Element} {s : List Char}
    (h : e.Renders Eq line s) (heq : e.unlined = e'.unlined) : e'.Renders anyLine line s := by
  obtain ⟨hname, hattrs, hall, htext'⟩ := unlined_eq_iff.mp heq
  match h with
  | .empty _ hs hattributes hchildren htext =>
    have hnone : e'.children = [] := by
      rw [hchildren, unlinedAll_eq_map e'.children] at hall
      exact List.map_eq_nil_iff.mp hall.symm
    rw [hname] at hs
    rw [hattrs] at hattributes
    exact .empty trivial hs hattributes hnone (htext'.symm.trans htext)
  | .paired _ hs hattributes hcontent hclose =>
    have hcontent' := hcontent.of_unlined_eq hall
    rw [htext'] at hcontent'
    rw [hname] at hs hclose
    rw [hattrs] at hattributes
    exact .paired trivial hs hattributes hcontent' hclose

/-- Children with other lines are rendered by the same text, if lines do not count. -/
theorem Contains.of_unlined_eq {line : Nat} {children children' : List Element}
    {text s : List Char} (h : Contains Eq line children text s)
    (heq : unlinedAll children = unlinedAll children') :
    Contains anyLine line children' text s := by
  match h with
  | .nil =>
    rw [unlinedAll_eq_map children'] at heq
    rw [List.map_eq_nil_iff.mp heq.symm]
    exact .nil
  | .ignored hs h => exact .ignored hs (h.of_unlined_eq heq)
  | .cdata hs h => exact .cdata hs (h.of_unlined_eq heq)
  | .text hs hrun h => exact .text hs hrun (h.of_unlined_eq heq)
  | .child he h =>
    rw [unlinedAll, unlinedAll_eq_map children'] at heq
    -- the other children begin with one that differs in its line only
    obtain ⟨e', rest, rfl, he', hrest⟩ := List.map_eq_cons_iff.mp heq.symm
    rw [← unlinedAll_eq_map] at hrest
    exact .child (he.of_unlined_eq he'.symm) (h.of_unlined_eq hrest.symm)

end

/-- A source is a document with a given root, lines aside, if it is one with the root's lines put
right. -/
theorem isRootOf_anyLine_iff {root : Element} {source : List Char} :
    root.IsRootOf anyLine source ↔
      ∃ root' : Element, root'.unlined = root.unlined ∧ root'.IsRootOf Eq source := by
  constructor
  · rintro ⟨front, s, back, hfront, hs, hback, hsource⟩
    obtain ⟨root', heq, hs⟩ := hs.exists_lined
    exact ⟨root', heq, front, s, back, hfront, hs, hback, hsource⟩
  · rintro ⟨root', heq, front, s, back, hfront, hs, hback, hsource⟩
    exact ⟨front, s, back, hfront, hs.of_unlined_eq heq, hback, hsource⟩

end Element

end Dialect.Markup

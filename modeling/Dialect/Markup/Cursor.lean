/-!
# Cursors

A place in a source: what is left to read and the line it begins on. The readers below each pass
over one lexical item. `Passes` says what all of them have in common: the item and the rest make up
what was left before, and the line grows by the line feeds in the item.
-/

namespace Dialect.Markup

/-- A place in a source. -/
structure Cursor where
  line : Nat
  rest : List Char
  deriving DecidableEq, Repr

namespace Cursor

/-- The cursor behind `used`, with `rest` left to read. -/
def after (c : Cursor) (used rest : List Char) : Cursor := ⟨c.line + used.count '\n', rest⟩

/-- The cursor `d` is reached from `c` by passing over `used`. -/
def Passes (c : Cursor) (used : List Char) (d : Cursor) : Prop :=
  c.rest = used ++ d.rest ∧ d = c.after used d.rest

/-- Nothing is passed over where the cursor stays. -/
theorem Passes.refl (c : Cursor) : c.Passes [] c := ⟨rfl, by simp [after]⟩

/-- Two items that are passed over one behind the other are passed over as one. -/
theorem Passes.trans {c d e : Cursor} {used more : List Char} (h : c.Passes used d)
    (h' : d.Passes more e) : c.Passes (used ++ more) e := by
  obtain ⟨hr, hd⟩ := h
  obtain ⟨hr', he⟩ := h'
  refine ⟨by rw [hr, hr', List.append_assoc], ?_⟩
  rw [he, hd]
  simp [after, List.count_append, Nat.add_assoc]

/-- Behind an item that is not empty there is less to read, so reading on comes to an end. -/
theorem Passes.length_lt {c d : Cursor} {used : List Char} (h : c.Passes used d)
    (hne : used ≠ []) : d.rest.length < c.rest.length := by
  have := List.length_pos_iff.2 hne
  rw [h.1, List.length_append]; omega

/-- The cursor behind an item has passed over it. -/
theorem passes_after {c : Cursor} {used rest : List Char} (h : c.rest = used ++ rest) :
    c.Passes used (c.after used rest) := ⟨h, rfl⟩

/-- Passes over the characters that satisfy `p`, as many as there are. -/
def takeWhile (p : Char → Bool) (c : Cursor) : List Char × Cursor :=
  (c.rest.takeWhile p, c.after (c.rest.takeWhile p) (c.rest.dropWhile p))

/-- What is taken is passed over, be it empty. -/
theorem takeWhile_passes (p : Char → Bool) (c : Cursor) :
    c.Passes (c.takeWhile p).1 (c.takeWhile p).2 :=
  passes_after List.takeWhile_append_dropWhile.symm

/-- What follows `mark` at the beginning of a text. -/
def stripLiteral? : List Char → List Char → Option (List Char)
  | [], s => some s
  | _ :: _, [] => none
  | m :: mark, c :: s => if m = c then stripLiteral? mark s else none

/-- What is found behind a mark is the rest of a text that begins with the mark. -/
theorem stripLiteral?_eq_some_iff {mark s rest : List Char} :
    stripLiteral? mark s = some rest ↔ s = mark ++ rest := by
  induction mark generalizing s with
  | nil => simp [stripLiteral?]
  | cons m mark ih =>
    cases s with
    | nil => simp [stripLiteral?]
    | cons c s =>
      by_cases h : m = c
      · simp [stripLiteral?, h, ih]
      · simp [stripLiteral?, h, Ne.symm h]

/-- Passes over exactly the characters `mark`. -/
def literal? (mark : String) (c : Cursor) : Option Cursor :=
  (stripLiteral? mark.toList c.rest).map (c.after mark.toList)

/-- A literal that is read is passed over. -/
theorem literal?_passes {mark : String} {c d : Cursor} (h : c.literal? mark = some d) :
    c.Passes mark.toList d := by
  obtain ⟨rest, hr, rfl⟩ := Option.map_eq_some_iff.1 h
  exact passes_after (stripLiteral?_eq_some_iff.1 hr)

/-- Splits a text around the first occurrence of `mark`. -/
def splitAtMark? (mark : List Char) (s : List Char) : Option (List Char × List Char) :=
  match stripLiteral? mark s with
  | some rest => some ([], rest)
  | none =>
    match s with
    | [] => none
    | c :: s => (splitAtMark? mark s).map fun p => (c :: p.1, p.2)

/-- A text that is split at a mark is what stands in front of the mark, the mark, and the rest. -/
theorem splitAtMark?_append {mark s body rest : List Char}
    (h : splitAtMark? mark s = some (body, rest)) : s = body ++ mark ++ rest := by
  induction s generalizing body with
  | nil =>
    rw [splitAtMark?] at h
    split at h
    · rename_i r hr
      simp only [Option.some.injEq, Prod.mk.injEq] at h
      obtain ⟨rfl, rfl⟩ := h
      simpa using stripLiteral?_eq_some_iff.1 hr
    · simp at h
  | cons c s ih =>
    rw [splitAtMark?] at h
    split at h
    · rename_i r hr
      simp only [Option.some.injEq, Prod.mk.injEq] at h
      obtain ⟨rfl, rfl⟩ := h
      simpa using stripLiteral?_eq_some_iff.1 hr
    · simp only [Option.map_eq_some_iff, Prod.mk.injEq] at h
      obtain ⟨⟨b, r⟩, hs, rfl, rfl⟩ := h
      simp [ih hs]

/-- Passes over everything up to and including the first `mark`, and hands out what stands before
the mark. -/
def through? (mark : String) (c : Cursor) : Option (List Char × Cursor) :=
  (splitAtMark? mark.toList c.rest).map fun p => (p.1, c.after (p.1 ++ mark.toList) p.2)

/-- Reading as far as a mark passes over what stands in front of the mark and over the mark. -/
theorem through?_passes {mark : String} {c d : Cursor} {body : List Char}
    (h : c.through? mark = some (body, d)) : c.Passes (body ++ mark.toList) d := by
  obtain ⟨⟨b, r⟩, hs, hp⟩ := Option.map_eq_some_iff.1 h
  obtain ⟨rfl, rfl⟩ := Prod.mk.inj hp
  exact passes_after (splitAtMark?_append hs)

/-- Passes over `opener`, a body and `closer`, which the body does not contain, and hands out the
body. -/
def enclosed? (opener closer : String) (c : Cursor) : Option (List Char × Cursor) :=
  (c.literal? opener).bind (through? closer)

/-- Reading what is enclosed passes over the opener, what is enclosed, and the closer. -/
theorem enclosed?_passes {opener closer : String} {c d : Cursor} {body : List Char}
    (h : c.enclosed? opener closer = some (body, d)) :
    c.Passes (opener.toList ++ (body ++ closer.toList)) d := by
  obtain ⟨e, he, hd⟩ := Option.bind_eq_some_iff.1 h
  exact (literal?_passes he).trans (through?_passes hd)

end Cursor

end Dialect.Markup

import Dialect.Markup.Token
import Mathlib.Data.List.Infix

/-!
# What the readers pass over

Every reader is characterised by the texts it passes over: it succeeds exactly in front of a text of
its kind. A reader that takes all it can needs one thing more, that what follows does not go on in
the same way (`Stops`); a reader of everything up to a mark relies on the mark having no beginning
that is also its end (`Unbordered`), for then the first mark behind a body without marks is the one
that was put there.
-/

namespace Dialect.Markup

/-- The text does not begin with a character that satisfies `p`. -/
def Stops (p : Char → Bool) (s : List Char) : Prop := ∀ x ∈ s.head?, p x = false

/-- A run stops at the end of the text. -/
theorem stops_nil (p : Char → Bool) : Stops p [] := by simp [Stops]

/-- A run stops in front of a character that does not belong to it. -/
theorem stops_cons {p : Char → Bool} {x : Char} {s : List Char} :
    Stops p (x :: s) ↔ p x = false := by simp [Stops]

/-- No part of the mark other than all of it is its beginning as well as its end. -/
def Unbordered (mark : List Char) : Prop := ∀ m ∈ mark.tails, m <+: mark → m = [] ∨ m = mark

instance (mark : List Char) : Decidable (Unbordered mark) :=
  inferInstanceAs (Decidable (∀ m ∈ mark.tails, m <+: mark → m = [] ∨ m = mark))

/-- Blanks and nothing else, or nothing at all. -/
def IsGap (s : List Char) : Prop := ∀ x ∈ s, isSpace x

instance (s : List Char) : Decidable (IsGap s) :=
  List.decidableBAll (fun x => isSpace x) s

/-- There need not be blanks in a gap. -/
theorem isGap_nil : IsGap [] := List.forall_mem_nil _

/-- A name: a character that may begin one, then any that may continue it. -/
def IsName : List Char → Prop
  | [] => False
  | x :: more => isNameStart x ∧ ∀ y ∈ more, isNameChar y

instance (s : List Char) : Decidable (IsName s) :=
  match s with
  | [] => .isFalse id
  | x :: more =>
    have : Decidable (∀ y ∈ more, isNameChar y) :=
      List.decidableBAll (fun y => isNameChar y) more
    inferInstanceAs (Decidable (isNameStart x ∧ ∀ y ∈ more, isNameChar y))

/-- A name has a first character, and goes on with others. -/
theorem IsName.exists_cons {s : List Char} (h : IsName s) :
    ∃ x more, s = x :: more ∧ isNameStart x ∧ ∀ y ∈ more, isNameChar y := by
  rcases s with _ | ⟨x, more⟩
  · exact h.elim
  · exact ⟨x, more, rfl, h⟩

/-- All characters of a name can stand in names. -/
theorem IsName.all_isNameChar {s : List Char} (h : IsName s) : ∀ x ∈ s, isNameChar x := by
  obtain ⟨x, more, rfl, hx, hmore⟩ := h.exists_cons
  exact List.forall_mem_cons.mpr ⟨Cursor.isNameChar_of_isNameStart hx, hmore⟩

namespace Cursor

variable {c d : Cursor}

/-! ## Passing over one text and another -/

/-- Passing over an item takes it off the front, and counts its line feeds. -/
theorem passes_iff {used : List Char} :
    c.Passes used d ↔ c.rest = used ++ d.rest ∧ d.line = c.line + used.count '\n' := by
  refine and_congr_right fun _ => ?_
  rw [after, Cursor.mk.injEq]
  exact and_iff_left rfl

/-- The line behind an item is further on by the line feeds in the item. -/
theorem Passes.line_eq {used : List Char} (h : c.Passes used d) :
    d.line = c.line + used.count '\n' := (passes_iff.mp h).2

/-- Two items are passed over one behind the other. -/
theorem passes_append_iff {used more : List Char} :
    c.Passes (used ++ more) d ↔ ∃ e, c.Passes used e ∧ e.Passes more d := by
  constructor
  · intro h
    refine ⟨c.after used (more ++ d.rest), passes_after ?_, passes_iff.mpr ⟨rfl, ?_⟩⟩
    · rw [h.1, List.append_assoc]
    · rw [h.line_eq, List.count_append, ← Nat.add_assoc]
      rfl
  · rintro ⟨e, h, h'⟩
    exact h.trans h'

/-- A text leads to one place only. -/
theorem Passes.unique {used : List Char} {e : Cursor} (h : c.Passes used d)
    (h' : c.Passes used e) : d = e := by
  have hrest : d.rest = e.rest := List.append_cancel_left (h.1.symm.trans h'.1)
  rw [h.2, h'.2, hrest]

/-- Passing over nothing stays where it is. -/
theorem passes_nil_iff : c.Passes [] d ↔ d = c := by
  refine ⟨fun h => h.unique (.refl c), ?_⟩
  rintro rfl
  exact .refl _

/-! ## Characters of a kind -/

/-- What is taken are characters of one kind, as many as there are. -/
theorem takeWhile_eq_iff {p : Char → Bool} {run : List Char} :
    c.takeWhile p = (run, d) ↔ c.Passes run d ∧ (∀ x ∈ run, p x) ∧ Stops p d.rest := by
  constructor
  · intro h
    have hp := takeWhile_passes p c
    rw [h] at hp
    obtain ⟨rfl, rfl⟩ := Prod.mk.inj h
    refine ⟨hp, List.all_eq_true.mp List.all_takeWhile, fun x hx => ?_⟩
    have hstop := List.head?_dropWhile_not p c.rest
    rw [show (c.rest.dropWhile p).head? = some x from hx] at hstop
    exact hstop
  · rintro ⟨hp, hrun, hstop⟩
    -- nothing more of the kind follows, so nothing more is taken
    have htail : d.rest.takeWhile p = [] ∧ d.rest.dropWhile p = d.rest := by
      rcases hd : d.rest with _ | ⟨x, s⟩
      · exact ⟨rfl, rfl⟩
      · rw [hd] at hstop
        have hx : p x = false := stops_cons.mp hstop
        simp [hx]
    have htake : c.rest.takeWhile p = run := by
      rw [hp.1, List.takeWhile_append_of_pos hrun, htail.1, List.append_nil]
    have hdrop : c.rest.dropWhile p = d.rest := by
      rw [hp.1, List.dropWhile_append_of_pos hrun, htail.2]
    rw [takeWhile, htake, hdrop, ← hp.2]

/-- What is taken satisfies the condition, and what is left does not go on with it. -/
theorem takeWhile_spec (p : Char → Bool) (c : Cursor) :
    c.Passes (c.takeWhile p).1 (c.takeWhile p).2 ∧ (∀ x ∈ (c.takeWhile p).1, p x) ∧
      Stops p (c.takeWhile p).2.rest :=
  takeWhile_eq_iff.mp rfl

/-- A literal is read exactly where it stands. -/
theorem literal?_eq_some_iff {mark : String} :
    c.literal? mark = some d ↔ c.Passes mark.toList d := by
  refine ⟨literal?_passes, fun h => ?_⟩
  rw [literal?, stripLiteral?_eq_some_iff.mpr h.1, Option.map_some, ← h.2]

/-! ## Up to a mark -/

/-- In front of a body without marks and a mark behind it stands no mark. -/
theorem stripLiteral?_eq_none {mark body rest : List Char} {x : Char} (hmark : Unbordered mark)
    (hbody : ¬ mark <:+: x :: body) :
    stripLiteral? mark (x :: body ++ (mark ++ rest)) = none := by
  refine Option.eq_none_iff_forall_ne_some.mpr fun r hr => hbody ?_
  have heq : x :: body ++ (mark ++ rest) = mark ++ r := stripLiteral?_eq_some_iff.mp hr
  rcases List.append_eq_append_iff.mp heq with ⟨m, hm, hr⟩ | ⟨m, hm, -⟩
  · have hsuffix : m <:+ mark := ⟨x :: body, hm.symm⟩
    -- What the two marks share ends the first and begins the second.
    have hfront : m <+: mark := by
      refine List.prefix_of_prefix_length_le ⟨r, hr.symm⟩ (List.prefix_append mark rest) ?_
      exact hsuffix.length_le
    rcases hmark m ((List.mem_tails m mark).mpr hsuffix) hfront with rfl | rfl
    · rw [hm, List.append_nil]
    · have hlen := congrArg List.length hm
      simp only [List.length_append, List.length_cons] at hlen
      omega
  · exact ⟨[], m, hm.symm⟩

/-- A text is split at the first place where the mark stands, if the mark does not overlap itself.
-/
theorem splitAtMark?_eq_some_iff {mark s body rest : List Char} (hne : mark ≠ [])
    (hmark : Unbordered mark) :
    splitAtMark? mark s = some (body, rest) ↔ s = body ++ (mark ++ rest) ∧ ¬ mark <:+: body := by
  constructor
  · intro h
    refine ⟨by rw [splitAtMark?_append h, List.append_assoc], ?_⟩
    -- on the text: a mark inside the body would have been found at its own place
    induction s generalizing body with
    | nil =>
      have hnil := splitAtMark?_append h
      simp [hne] at hnil
    | cons x s ih =>
      rw [splitAtMark?] at h
      split at h
      · obtain ⟨rfl, rfl⟩ := Prod.mk.inj (Option.some.inj h)
        simp [hne]
      · rename_i hnone
        obtain ⟨⟨b, r⟩, hs, hp⟩ := Option.map_eq_some_iff.mp h
        obtain ⟨rfl, rfl⟩ := Prod.mk.inj hp
        refine fun hmem => ?_
        rcases List.infix_cons_iff.mp hmem with ⟨m, hm⟩ | hmem
        -- it would begin right here
        · have hsome : stripLiteral? mark (x :: s) = some (m ++ mark ++ r) := by
            refine stripLiteral?_eq_some_iff.mpr ?_
            rw [splitAtMark?_append hs, ← List.cons_append, ← List.cons_append, ← hm]
            simp
          rw [hsome] at hnone
          simp at hnone
        -- or further behind
        · exact ih hs hmem
  · rintro ⟨rfl, hbody⟩
    -- on the body: the mark is not found while there is some of it left
    induction body with
    | nil =>
      have hsome : stripLiteral? mark (mark ++ rest) = some rest :=
        stripLiteral?_eq_some_iff.mpr rfl
      rw [List.nil_append, splitAtMark?.eq_def, hsome]
    | cons x body ih =>
      have hrest : ¬ mark <:+: body := fun h => hbody (List.infix_cons h)
      rw [splitAtMark?.eq_def, stripLiteral?_eq_none hmark hbody]
      show Option.map _ (splitAtMark? mark (body ++ (mark ++ rest))) = _
      rw [ih hrest, Option.map_some]

/-- What is enclosed ends at the first closer. -/
theorem enclosed?_eq_some_iff {opener closer : String} {body : List Char}
    (hne : closer.toList ≠ []) (hcloser : Unbordered closer.toList) :
    c.enclosed? opener closer = some (body, d) ↔
      ¬ closer.toList <:+: body ∧ c.Passes (opener.toList ++ (body ++ closer.toList)) d := by
  rw [enclosed?, Option.bind_eq_some_iff, passes_append_iff]
  simp only [literal?_eq_some_iff, through?, Option.map_eq_some_iff, Prod.exists, Prod.mk.injEq,
    splitAtMark?_eq_some_iff hne hcloser]
  constructor
  · rintro ⟨e, he, b, r, ⟨hrest, hbody⟩, rfl, rfl⟩
    refine ⟨hbody, e, he, passes_after ?_⟩
    rw [hrest, List.append_assoc]
  · rintro ⟨hbody, e, he, hd⟩
    refine ⟨e, he, body, d.rest, ⟨?_, hbody⟩, rfl, hd.2.symm⟩
    rw [hd.1, List.append_assoc]

/-- A reader of enclosed texts fails where its opener does not stand. -/
theorem enclosed?_eq_none {opener closer : String}
    (h : stripLiteral? opener.toList c.rest = none) : c.enclosed? opener closer = none := by
  rw [enclosed?, literal?, h]
  rfl

/-! ## Blanks, names and quoted values -/

/-- What is passed over as blanks is a gap, and no blank follows it. -/
theorem exists_gap (c : Cursor) :
    ∃ gap, IsGap gap ∧ c.Passes gap c.spaces ∧ Stops isSpace c.spaces.rest := by
  obtain ⟨hp, hgap, hstop⟩ := takeWhile_spec isSpace c
  exact ⟨_, hgap, hp, hstop⟩

/-- A gap is passed over up to where it ends. -/
theorem spaces_eq {gap : List Char} (hgap : IsGap gap) (h : c.Passes gap d)
    (hstop : Stops isSpace d.rest) : c.spaces = d :=
  congrArg Prod.snd (takeWhile_eq_iff.mpr ⟨h, hgap, hstop⟩)

/-- Blanks that have to be there are a gap that is not empty. -/
theorem spaces?_eq_some_iff :
    c.spaces? = some d ↔
      ∃ gap, gap ≠ [] ∧ IsGap gap ∧ c.Passes gap d ∧ Stops isSpace d.rest := by
  constructor
  · intro h
    unfold spaces? at h
    split at h
    · simp at h
    · rename_i x gap e he
      obtain rfl := Option.some.inj h
      obtain ⟨hp, hgap, hstop⟩ := takeWhile_eq_iff.mp he
      exact ⟨x :: gap, List.cons_ne_nil x gap, hgap, hp, hstop⟩
  · rintro ⟨gap, hne, hgap, hp, hstop⟩
    rcases gap with _ | ⟨x, gap⟩
    · exact absurd rfl hne
    · rw [spaces?, takeWhile_eq_iff.mpr ⟨hp, hgap, hstop⟩]

/-- A name is read as far as characters go that can stand in names. -/
theorem name?_eq_some_iff {name : String} :
    c.name? = some (name, d) ↔
      IsName name.toList ∧ c.Passes name.toList d ∧ Stops isNameChar d.rest := by
  constructor
  · intro h
    unfold name? at h
    split at h
    · simp at h
    · rename_i x s hrest
      split at h
      · rename_i hx
        obtain ⟨hname, hd⟩ := Prod.mk.inj (Option.some.inj h)
        have htake : c.takeWhile isNameChar = (name.toList, d) := by
          rw [← hname, ← hd, String.toList_ofList]
          rfl
        obtain ⟨hp, hall, hstop⟩ := takeWhile_eq_iff.mp htake
        refine ⟨?_, hp, hstop⟩
        -- the first character is taken with the others
        have hx' : isNameChar x := isNameChar_of_isNameStart hx
        have hcons : name.toList = x :: s.takeWhile isNameChar := by
          have hfst : c.rest.takeWhile isNameChar = name.toList := congrArg Prod.fst htake
          rw [← hfst, hrest, List.takeWhile_cons_of_pos hx']
        rw [hcons] at hall ⊢
        exact ⟨hx, fun y hy => hall y (List.mem_cons_of_mem x hy)⟩
      · simp at h
  · rintro ⟨hname, hp, hstop⟩
    have htake : c.takeWhile isNameChar = (name.toList, d) :=
      takeWhile_eq_iff.mpr ⟨hp, hname.all_isNameChar, hstop⟩
    obtain ⟨x, more, hcons, hx, -⟩ := hname.exists_cons
    have hrest : c.rest = x :: (more ++ d.rest) := by rw [hp.1, hcons, List.cons_append]
    unfold name?
    rw [hrest]
    simp only [hx, if_true, htake, String.ofList_toList]

/-- A value is read between two quotes, and neither a quote nor a bracket stands in it. -/
theorem quoted?_eq_some_iff {quote : Char} {value : List Char} :
    c.quoted? quote = some (value, d) ↔
      quote ∉ value ∧ '<' ∉ value ∧ c.Passes (quote :: (value ++ [quote])) d := by
  have hquote : quote.toString.toList = [quote] := by simp
  -- the value is a run of characters that neither end it nor are refused in it
  have hrun : (∀ x ∈ value, (x != quote && x != '<') = true) ↔ quote ∉ value ∧ '<' ∉ value := by
    simp only [Bool.and_eq_true, bne_iff_ne, ne_eq]
    constructor
    · intro h
      exact ⟨fun hmem => (h _ hmem).1 rfl, fun hmem => (h _ hmem).2 rfl⟩
    · rintro ⟨hq, hlt⟩ x hx
      exact ⟨ne_of_mem_of_not_mem hx hq, ne_of_mem_of_not_mem hx hlt⟩
  rw [← List.singleton_append, passes_append_iff]
  simp only [passes_append_iff, quoted?, Option.bind_eq_bind, Option.pure_def,
    Option.bind_eq_some_iff, literal?_eq_some_iff, hquote, Option.some.injEq, Prod.mk.injEq]
  constructor
  · rintro ⟨e, he, f, hf, rfl, rfl⟩
    obtain ⟨hp, hall, -⟩ := takeWhile_spec (fun x => x != quote && x != '<') e
    obtain ⟨hq, hlt⟩ := hrun.mp hall
    exact ⟨hq, hlt, e, he, _, hp, hf⟩
  · rintro ⟨hq, hlt, e, he, f, hp, hd⟩
    have hstop : Stops (fun x => x != quote && x != '<') f.rest := by
      rw [hd.1]
      exact stops_cons.mpr (by simp)
    have htake := takeWhile_eq_iff.mpr ⟨hp, hrun.mpr ⟨hq, hlt⟩, hstop⟩
    exact ⟨e, he, d, by rw [htake]; exact hd, by rw [htake], rfl⟩

/-- Blanks in front of something that does not begin with one. -/
theorem spaces_literal?_eq_some_iff {mark : String} (hmark : Stops isSpace mark.toList)
    (hne : mark.toList ≠ []) :
    c.spaces.literal? mark = some d ↔ ∃ gap, IsGap gap ∧ c.Passes (gap ++ mark.toList) d := by
  simp only [literal?_eq_some_iff, passes_append_iff]
  constructor
  · intro h
    obtain ⟨gap, hgap, hp, -⟩ := c.exists_gap
    exact ⟨gap, hgap, _, hp, h⟩
  · rintro ⟨gap, hgap, e, he, hd⟩
    have hstop : Stops isSpace e.rest := by
      rw [hd.1]
      rcases hs : mark.toList with _ | ⟨x, s⟩
      · exact absurd hs hne
      · rw [hs] at hmark
        exact stops_cons.mpr (stops_cons.mp hmark)
    rw [spaces_eq hgap he hstop]
    exact hd

end Cursor

end Dialect.Markup

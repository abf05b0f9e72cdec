import Dialect.Proofs.Markup.Spelling

/-!
# Outside the root element

What may stand before and behind the root element (`IsProlog`, `IsMiscellany`), and that the readers
pass over exactly that. Blanks are read many at a time, so the runs of blanks of a text may be put
together in more than one way; `miscellany_of_blank` takes them one at a time.
-/

namespace Dialect.Markup

/-- Comments, instructions and blanks. -/
inductive IsMiscellany : List Char → Prop
  | nil : IsMiscellany []
  | blank {x : Char} {s : List Char} (hx : isSpace x) (h : IsMiscellany s) : IsMiscellany (x :: s)
  | comment {s more : List Char} (hs : IsComment s) (h : IsMiscellany more) :
      IsMiscellany (s ++ more)
  | instruction {s more : List Char} (hs : IsInstruction s) (h : IsMiscellany more) :
      IsMiscellany (s ++ more)

/-- What may stand before the root element, all of it optional: a byte order mark, then comments,
instructions and blanks with at most one document type declaration among them. -/
def IsProlog (s : List Char) : Prop :=
  ∃ mark front declaration back, (mark = [] ∨ mark = "\uFEFF".toList) ∧ IsMiscellany front ∧
    (declaration = [] ∨ IsDoctype declaration) ∧ IsMiscellany back ∧
    s = mark ++ (front ++ (declaration ++ back))

/-- There need not be anything in front of the root. -/
theorem isProlog_nil : IsProlog [] :=
  ⟨[], [], [], [], .inl rfl, .nil, .inl rfl, .nil, rfl⟩

/-- What may stand around the root may stand there several times. -/
theorem IsMiscellany.append {s more : List Char} (h : IsMiscellany s) (h' : IsMiscellany more) :
    IsMiscellany (s ++ more) := by
  induction h with
  | nil => exact h'
  | blank hx _ ih => exact .blank hx ih
  | comment hs _ ih =>
    rw [List.append_assoc]
    exact .comment hs ih
  | instruction hs _ ih =>
    rw [List.append_assoc]
    exact .instruction hs ih

/-- Blanks may stand around the root. -/
theorem IsGap.isMiscellany {gap : List Char} (h : IsGap gap) : IsMiscellany gap := by
  induction gap with
  | nil => exact .nil
  | cons x gap ih =>
    exact .blank (h x List.mem_cons_self) (ih fun y hy => h y (List.mem_cons_of_mem x hy))

namespace Cursor

variable {c d : Cursor}

/-- What is passed over around the root is what may stand there. -/
theorem miscellany_spells (c : Cursor) : ∃ s, IsMiscellany s ∧ c.Passes s c.miscellany := by
  fun_induction miscellany c with
  | case1 c h => exact ⟨[], .nil, .refl c⟩
  | case2 c d h _ ih =>
    obtain ⟨more, hmore, hq⟩ := ih
    simp only [miscellany?, Option.or_eq_some_iff, comment?_eq_some_iff, instruction?_eq_some_iff,
      spaces?_eq_some_iff] at h
    rcases h with ⟨s, hs, hp⟩ | ⟨-, ⟨s, hs, hp⟩ | ⟨-, gap, -, hgap, hp, -⟩⟩
    · exact ⟨s ++ more, .comment hs hmore, hp.trans hq⟩
    · exact ⟨s ++ more, .instruction hs hmore, hp.trans hq⟩
    · exact ⟨gap ++ more, hgap.isMiscellany.append hmore, hp.trans hq⟩

/-- Where nothing of that kind follows, nothing is passed over. -/
theorem miscellany_of_none (h : c.miscellany? = none) : c.miscellany = c := by
  rw [miscellany]
  split
  · rfl
  · rename_i hsome
    rw [h] at hsome
    simp at hsome

/-- What is passed over is one item, and then what follows it. -/
theorem miscellany_of_some (h : c.miscellany? = some d) : c.miscellany = d.miscellany := by
  rw [miscellany]
  split
  · rename_i hnone
    rw [h] at hnone
    simp at hnone
  · rename_i e hsome
    rw [h] at hsome
    rw [Option.some.inj hsome]

/-- Blanks that have to be there are missed where none follow. -/
theorem spaces?_eq_none (h : Stops isSpace c.rest) : c.spaces? = none := by
  refine Option.eq_none_iff_forall_ne_some.mpr fun d hd => ?_
  obtain ⟨gap, hne, hgap, hp, -⟩ := spaces?_eq_some_iff.mp hd
  rcases gap with _ | ⟨x, gap⟩
  · exact hne rfl
  · rw [hp.1] at h
    exact Bool.false_ne_true ((stops_cons.mp h).symm.trans (hgap x List.mem_cons_self))

/-- Nothing of that kind follows if no comment, no instruction and no blank does. -/
theorem miscellany?_eq_none (hcomment : stripLiteral? "<!--".toList c.rest = none)
    (hinstruction : stripLiteral? "<?".toList c.rest = none) (hspace : Stops isSpace c.rest) :
    c.miscellany? = none := by
  rw [miscellany?, comment?_eq_none hcomment, instruction?_eq_none hinstruction,
    spaces?_eq_none hspace]
  rfl

/-- Behind a blank, blanks are what is read. -/
theorem miscellany?_of_blank {x : Char} {rest : List Char} (hx : isSpace x)
    (hrest : c.rest = x :: rest) : c.miscellany? = c.spaces? := by
  have hstrip : ∀ mark, stripLiteral? ('<' :: mark) c.rest = none := fun mark => by
    have hne : '<' ≠ x := by
      rintro rfl
      exact absurd hx (by decide)
    rw [hrest, stripLiteral?, if_neg hne]
  rw [miscellany?, comment?_eq_none (hstrip _), instruction?_eq_none (hstrip _)]
  rfl

/-- One blank more in front makes no difference. -/
theorem miscellany_of_blank {x : Char} (hx : isSpace x) (hp : c.Passes [x] d) :
    c.miscellany = d.miscellany := by
  obtain ⟨gap, hgap, hq, hstop⟩ := d.exists_gap
  have hall : c.spaces? = some d.spaces := by
    refine spaces?_eq_some_iff.mpr ⟨x :: gap, List.cons_ne_nil x gap, ?_, hp.trans hq, hstop⟩
    exact fun y hy => (List.mem_cons.mp hy).elim (fun h => h ▸ hx) (hgap y)
  have hc : c.miscellany = d.spaces.miscellany :=
    miscellany_of_some ((miscellany?_of_blank hx hp.1).trans hall)
  -- both pass over all the blanks, and then go on from the same place
  rcases gap with _ | ⟨y, gap⟩
  · rw [hc, passes_nil_iff.mp hq]
  · have hy : isSpace y = true := hgap y List.mem_cons_self
    have hd : d.spaces? = some d.spaces :=
      spaces?_eq_some_iff.mpr ⟨y :: gap, List.cons_ne_nil y gap, hgap, hq, hstop⟩
    rw [hc, miscellany_of_some ((miscellany?_of_blank hy hq.1).trans hd)]

/-- What may stand around the root is passed over up to where it ends. -/
theorem miscellany_eq {s : List Char} (h : IsMiscellany s) (hp : c.Passes s d)
    (hd : d.miscellany? = none) : c.miscellany = d := by
  -- on what stands there, which is passed over piece by piece
  induction h generalizing c with
  | nil =>
    obtain rfl := passes_nil_iff.mp hp
    exact miscellany_of_none hd
  | @blank x s hx _ ih =>
    obtain ⟨e, hp, hq⟩ := passes_append_iff.mp (List.singleton_append ▸ hp)
    rw [miscellany_of_blank hx hp, ih hq]
  | comment hs _ ih =>
    obtain ⟨e, hp, hq⟩ := passes_append_iff.mp hp
    have hsome : c.miscellany? = some e := by
      rw [miscellany?, comment?_eq_some_iff.mpr ⟨_, hs, hp⟩]
      rfl
    rw [miscellany_of_some hsome, ih hq]
  | instruction hs _ ih =>
    obtain ⟨e, hp, hq⟩ := passes_append_iff.mp hp
    have hsome : c.miscellany? = some e := by
      have hi : c.instruction? = some e := instruction?_eq_some_iff.mpr ⟨_, hs, hp⟩
      obtain ⟨body, -, rfl⟩ := hs
      rw [miscellany?, comment?_eq_none (by rw [hp.1]; rfl), hi]
      rfl
    rw [miscellany_of_some hsome, ih hq]

/-- What is passed over in front of the root is what may stand there. -/
theorem prolog_spells (c : Cursor) : ∃ s, IsProlog s ∧ c.Passes s c.prolog := by
  obtain ⟨mark, hmark, hp⟩ : ∃ mark, (mark = [] ∨ mark = "\uFEFF".toList) ∧
      c.Passes mark ((c.literal? "\uFEFF").getD c) := by
    rcases hmark : c.literal? "\uFEFF" with _ | d
    · exact ⟨[], .inl rfl, .refl c⟩
    · exact ⟨_, .inr rfl, literal?_eq_some_iff.mp hmark⟩
  obtain ⟨front, hfront, hq⟩ := ((c.literal? "\uFEFF").getD c).miscellany_spells
  rcases hdecl : ((c.literal? "\uFEFF").getD c).miscellany.doctype? with _ | d
  · have hprolog : c.prolog = ((c.literal? "\uFEFF").getD c).miscellany := by
      simp only [prolog, hdecl]
    rw [hprolog]
    exact ⟨_, ⟨mark, front, [], [], hmark, hfront, .inl rfl, .nil, rfl⟩,
      hp.trans (hq.trans ((Passes.refl _).trans (.refl _)))⟩
  · have hprolog : c.prolog = d.miscellany := by simp only [prolog, hdecl]
    rw [hprolog]
    obtain ⟨declaration, hdecl, hr⟩ := doctype?_eq_some_iff.mp hdecl
    obtain ⟨back, hback, ht⟩ := d.miscellany_spells
    exact ⟨_, ⟨mark, front, declaration, back, hmark, hfront, .inr hdecl, hback, rfl⟩,
      hp.trans (hq.trans (hr.trans ht))⟩

/-- Nothing that may stand before the root element begins with a byte order mark but the mark
itself. -/
theorem stops_of_isMiscellany {s rest : List Char} (h : IsMiscellany s)
    (hrest : Stops (· == '\uFEFF') rest) : Stops (· == '\uFEFF') (s ++ rest) := by
  cases h with
  | nil => exact hrest
  | blank hx _ =>
    refine stops_cons.mpr (beq_false_of_ne ?_)
    rintro rfl
    exact absurd hx (by decide)
  | comment hs _ =>
    obtain ⟨_, -, rfl⟩ := hs
    exact stops_cons.mpr (by decide)
  | instruction hs _ =>
    obtain ⟨_, -, rfl⟩ := hs
    exact stops_cons.mpr (by decide)

/-- What may stand in front of the root is passed over up to the root. -/
theorem prolog_eq {s rest : List Char} {x : Char} (h : IsProlog s) (hp : c.Passes s d)
    (hrest : d.rest = '<' :: x :: rest) (hx : isNameStart x) : c.prolog = d := by
  obtain ⟨mark, front, declaration, back, hmark, hfront, hdecl, hback, rfl⟩ := h
  obtain ⟨d₁, p₁, hp⟩ := passes_append_iff.mp hp
  obtain ⟨d₂, p₂, hp⟩ := passes_append_iff.mp hp
  obtain ⟨d₃, p₃, p₄⟩ := passes_append_iff.mp hp
  have hbang : '!' ≠ x := ne_of_isNameStart hx (by decide)
  have hquery : '?' ≠ x := ne_of_isNameStart hx (by decide)
  -- the root begins nothing that may stand around it
  have hd : d.miscellany? = none := by
    refine miscellany?_eq_none ?_ ?_ ?_ <;> rw [hrest]
    · simp [stripLiteral?, hbang]
    · simp [stripLiteral?, hquery]
    · exact stops_cons.mpr (by decide)
  have hroot : d.doctype? = none := doctype?_eq_none (by rw [hrest]; simp [stripLiteral?, hbang])
  -- a byte order mark is passed over where it stands, and nothing else is taken for one
  have h₁ : (c.literal? "\uFEFF").getD c = d₁ := by
    rcases hmark with rfl | rfl
    · obtain rfl := passes_nil_iff.mp p₁
      have hstop : Stops (· == '\uFEFF') d₁.rest := by
        rw [p₂.1, p₃.1, p₄.1, hrest]
        refine stops_of_isMiscellany hfront ?_
        have hback : Stops (· == '\uFEFF') (back ++ '<' :: x :: rest) :=
          stops_of_isMiscellany hback (stops_cons.mpr (by decide))
        rcases hdecl with rfl | ⟨_, -, rfl⟩
        · exact hback
        · exact stops_cons.mpr (by decide)
      have hnone : d₁.literal? "\uFEFF" = none := by
        refine Option.eq_none_iff_forall_ne_some.mpr fun e he => ?_
        rw [(literal?_eq_some_iff.mp he).1] at hstop
        exact absurd (stops_cons.mp hstop) (by decide)
      rw [hnone, Option.getD_none]
    · rw [literal?_eq_some_iff.mpr p₁, Option.getD_some]
  -- with no declaration the two pieces of what may stand around the root are one
  unfold prolog
  simp only [h₁]
  rcases hdecl with rfl | hdecl
  · obtain rfl := passes_nil_iff.mp p₃
    rw [miscellany_eq (hfront.append hback) (p₂.trans p₄) hd, hroot]
  -- the declaration ends the first piece, and the second is behind it
  · have hsome : d₂.doctype? = some d₃ := doctype?_eq_some_iff.mpr ⟨declaration, hdecl, p₃⟩
    obtain ⟨_, -, rfl⟩ := hdecl
    have hnone : d₂.miscellany? = none := by
      refine miscellany?_eq_none ?_ ?_ ?_ <;> rw [p₃.1]
      · rfl
      · rfl
      · exact stops_cons.mpr (by decide)
    rw [miscellany_eq hfront p₂ hnone, hsome]
    exact miscellany_eq hback p₄ hd

end Cursor

end Dialect.Markup

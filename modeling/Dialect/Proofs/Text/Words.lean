import Dialect.Proofs.Text.Blank
import Mathlib.Data.List.Chain

/-!
# Words and texts on one line

Blanks divide a text into words (`HasWords`), in one way only (`words_eq_iff`). The words with one
space between each two are a text on one line (`IsOneLine`). It is the only such text with these
words (`oneLine_eq_iff`), so putting texts on one line keeps of them their words and nothing else.
-/

namespace Dialect.Text

variable {c : Char} {s s' t w front rest : List Char} {ws : List (List Char)}

/-- The text begins with a blank, if with anything. -/
def BeginsBlank (s : List Char) : Prop := ∀ c ∈ s.head?, isBlank c

/-- The text is neither empty nor is there a blank in it. -/
structure IsWord (w : List Char) : Prop where
  ne_nil : w ≠ []
  plain : ∀ c ∈ w, ¬ isBlank c

/-- The text has the words, in order: it is made of them and of blanks, with at least one blank
between each two. -/
inductive HasWords : List Char → List (List Char) → Prop
  | blank {s : List Char} (h : AllBlank s) : HasWords s []
  | word {front w rest : List Char} {ws : List (List Char)} (hfront : AllBlank front)
      (hword : IsWord w) (hgap : BeginsBlank rest) (hrest : HasWords rest ws) :
      HasWords (front ++ w ++ rest) (w :: ws)

/-! ## The words of a text -/

theorem allBlank_cons (hc : isBlank c) (h : AllBlank s) : AllBlank (c :: s) :=
  List.forall_mem_cons.mpr ⟨hc, h⟩

theorem isWord_singleton (hc : ¬ isBlank c) : IsWord [c] := ⟨by simp, by simpa using hc⟩

theorem IsWord.cons (hc : ¬ isBlank c) (h : IsWord w) : IsWord (c :: w) :=
  ⟨by simp, List.forall_mem_cons.mpr ⟨hc, h.plain⟩⟩

/-- A blank is part of no word. -/
theorem words_cons_of_isBlank (hc : isBlank c) : words (c :: s) = words s := by
  rw [words.eq_def]
  exact if_pos hc

/-- Blanks in front add no words. -/
theorem words_append_of_allBlank (h : AllBlank front) : words (front ++ s) = words s := by
  induction front with
  | nil => rfl
  | cons c front ih =>
    obtain ⟨hc, hfront⟩ := List.forall_mem_cons.mp h
    rw [List.cons_append, words_cons_of_isBlank hc, ih hfront]

/-- A word goes on until there is a blank. -/
theorem words_append_of_isWord (hword : IsWord w) (hgap : BeginsBlank rest) :
    words (w ++ rest) = w :: words rest := by
  induction w with
  | nil => exact absurd rfl hword.ne_nil
  | cons c w ih =>
    obtain ⟨hc, hw⟩ := List.forall_mem_cons.mp hword.plain
    cases w with
    | nil =>
      -- the word ends here, with the text or in front of a blank
      cases rest with
      | nil =>
        rw [List.append_nil, words.eq_def]
        exact if_neg hc
      | cons d rest =>
        have hd : isBlank d := hgap d rfl
        rw [List.singleton_append, words.eq_def]
        exact (if_neg hc).trans (if_pos hd)
    | cons d w =>
      have hd : ¬ isBlank d := hw d List.mem_cons_self
      have hrest := ih ⟨List.cons_ne_nil d w, hw⟩
      simp only [List.cons_append] at hrest ⊢
      rw [words.eq_def]
      refine (if_neg hc).trans ((if_neg hd).trans ?_)
      rw [hrest]

/-- The words in a text are found, one by one. -/
theorem HasWords.words_eq (h : HasWords s ws) : words s = ws := by
  induction h with
  | blank h =>
    have hwords : words (_ ++ []) = words [] := words_append_of_allBlank h
    rwa [List.append_nil] at hwords
  | word hfront hword hgap _ ih =>
    rw [List.append_assoc, words_append_of_allBlank hfront, words_append_of_isWord hword hgap, ih]

/-- Every text has words, be it none. -/
theorem exists_hasWords (s : List Char) : ∃ ws, HasWords s ws := by
  induction s with
  | nil => exact ⟨[], .blank allBlank_nil⟩
  | cons c s ih =>
    obtain ⟨ws, h⟩ := ih
    -- a blank goes in front of all words, and another character begins one or goes to the first
    by_cases hc : isBlank c
    · cases h with
      | blank h => exact ⟨[], .blank (allBlank_cons hc h)⟩
      | word hfront hword hgap hrest => exact ⟨_, .word (allBlank_cons hc hfront) hword hgap hrest⟩
    · cases h with
      | blank h =>
        have hgap : BeginsBlank s := fun d hd => h d (List.mem_of_mem_head? hd)
        exact ⟨_, .word allBlank_nil (isWord_singleton hc) hgap (.blank h)⟩
      | @word front w rest ws hfront hword hgap hrest =>
        cases front with
        | nil => exact ⟨_, .word allBlank_nil (hword.cons hc) hgap hrest⟩
        | cons d front =>
          have hfirst : BeginsBlank (d :: front ++ w ++ rest) := by
            intro b hb
            obtain rfl : d = b := Option.some.inj hb
            exact hfront d List.mem_cons_self
          exact ⟨_, .word allBlank_nil (isWord_singleton hc) hfirst
            (.word hfront hword hgap hrest)⟩

/-- A text has the words that are found in it and no others. -/
theorem words_eq_iff : words s = ws ↔ HasWords s ws := by
  constructor
  · rintro rfl
    obtain ⟨ws, h⟩ := exists_hasWords s
    rwa [h.words_eq]
  · exact HasWords.words_eq

/-- What a text has as words are words. -/
theorem HasWords.isWord (h : HasWords s ws) : ∀ w ∈ ws, IsWord w := by
  induction h with
  | blank _ => simp
  | word _ hword _ _ ih => exact List.forall_mem_cons.mpr ⟨hword, ih⟩

/-- What is found as words are words. -/
theorem isWord_of_mem_words (s : List Char) : ∀ w ∈ words s, IsWord w :=
  (words_eq_iff.mp rfl).isWord

/-! ## Texts on one line -/

/-- The text is on one line: there are no blanks at its ends, and those inside are spaces, one
between each two words. -/
structure IsOneLine (s : List Char) : Prop where
  begins : BeginsPlain s
  ends : BeginsPlain s.reverse
  spaces : ∀ c ∈ s, isBlank c → c = ' '
  single : s.IsChain fun c d => ¬ (isBlank c ∧ isBlank d)

theorem isOneLine_nil : IsOneLine [] := ⟨nofun, nofun, nofun, List.isChain_nil⟩

/-- Of all blanks only the space is part of a text on one line. -/
theorem IsOneLine.notMem (h : IsOneLine s) (hc : isBlank c) (hne : c ≠ ' ') : c ∉ s := by
  intro hmem
  exact hne (h.spaces c hmem hc)

/-- Where there are no blanks there are no two in a row. -/
theorem isChain_of_plain (h : ∀ c ∈ w, ¬ isBlank c) :
    w.IsChain fun c d => ¬ (isBlank c ∧ isBlank d) := by
  induction w with
  | nil => exact List.isChain_nil
  | cons c w ih =>
    obtain ⟨hc, hw⟩ := List.forall_mem_cons.mp h
    exact (ih hw).cons fun d _ hboth => hc hboth.1

/-- A word is a text on one line. -/
theorem IsWord.isOneLine (h : IsWord w) : IsOneLine w where
  begins c hc := h.plain c (List.mem_of_mem_head? hc)
  ends c hc := h.plain c (List.mem_reverse.mp (List.mem_of_mem_head? hc))
  spaces c hc hblank := absurd hblank (h.plain c hc)
  single := isChain_of_plain h.plain

/-- A word, a space and more of a text on one line. -/
theorem IsOneLine.cons_word (hw : IsWord w) (h : IsOneLine s) (hs : s ≠ []) :
    IsOneLine (w ++ ' ' :: s) where
  begins := by
    intro c hc
    rw [List.head?_append_of_ne_nil _ hw.ne_nil] at hc
    exact hw.isOneLine.begins c hc
  ends := by
    intro c hc
    rw [List.reverse_append, List.reverse_cons, List.append_assoc,
      List.head?_append_of_ne_nil _ (List.reverse_eq_nil_iff.not.mpr hs)] at hc
    exact h.ends c hc
  spaces := by
    intro c hc hblank
    rcases List.mem_append.mp hc with hc | hc
    · exact absurd hblank (hw.plain c hc)
    · rcases List.mem_cons.mp hc with rfl | hc
      · rfl
      · exact h.spaces c hc hblank
  single := by
    refine (isChain_of_plain hw.plain).append (h.single.cons fun d hd hboth => ?_) ?_
    · exact h.begins d hd hboth.2
    · intro c hc d _ hboth
      exact hw.plain c (List.mem_of_getLast? hc) hboth.1

/-- What stands behind a blank of a text on one line. -/
theorem IsOneLine.of_append_blank (h : IsOneLine (front ++ c :: s)) (hc : isBlank c) :
    c = ' ' ∧ s ≠ [] ∧ IsOneLine s := by
  have hends := h.ends
  rw [List.reverse_append, List.reverse_cons, List.append_assoc] at hends
  have hne : s ≠ [] := by
    rintro rfl
    exact hends c rfl hc
  have hchain := h.single.right_of_append
  refine ⟨h.spaces c (by simp) hc, hne, ?_, ?_, ?_, hchain.tail⟩
  · intro d hd hblank
    exact hchain.rel_head? hd ⟨hc, hblank⟩
  · intro d hd
    refine hends d ?_
    rwa [List.head?_append_of_ne_nil _ (List.reverse_eq_nil_iff.not.mpr hne)]
  · intro d hd
    exact h.spaces d (by simp [hd])

theorem unwords_cons (hne : ws ≠ []) : unwords (w :: ws) = w ++ ' ' :: unwords ws := by
  cases ws with
  | nil => exact absurd rfl hne
  | cons v ws => rfl

/-- With single spaces between them, words are a text on one line, and it has these words. -/
theorem isOneLine_unwords (h : ∀ w ∈ ws, IsWord w) :
    IsOneLine (unwords ws) ∧ words (unwords ws) = ws := by
  induction ws with
  | nil => exact ⟨isOneLine_nil, rfl⟩
  | cons w ws ih =>
    obtain ⟨hw, hrest⟩ := List.forall_mem_cons.mp h
    obtain ⟨hline, hwords⟩ := ih hrest
    -- no space stands behind the last word
    by_cases hne : ws = []
    · subst hne
      have hlast : words (w ++ []) = w :: words [] := words_append_of_isWord hw nofun
      rw [List.append_nil] at hlast
      exact ⟨hw.isOneLine, hlast⟩
    · have htext : unwords ws ≠ [] := by
        intro hnil
        rw [hnil] at hwords
        exact hne hwords.symm
      have hgap : BeginsBlank (' ' :: unwords ws) := by
        intro c hc
        obtain rfl : ' ' = c := Option.some.inj hc
        rfl
      rw [unwords_cons hne, words_append_of_isWord hw hgap, words_cons_of_isBlank rfl, hwords]
      exact ⟨hline.cons_word hw htext, rfl⟩

/-- A text on one line is its words with single spaces between them. -/
theorem IsOneLine.unwords_words (h : IsOneLine s) : unwords (words s) = s := by
  generalize hws : words s = ws
  -- on the words, with what is left of the text behind each of them
  induction ws generalizing s with
  | nil =>
    cases words_eq_iff.mp hws with
    | blank hblank =>
      cases s with
      | nil => rfl
      | cons c s => exact absurd (hblank c List.mem_cons_self) (h.begins c rfl)
  | cons w ws ih =>
    cases words_eq_iff.mp hws with
    | @word front w rest ws hfront hword hgap hrest =>
      -- a text on one line begins with no blank, so its first word stands at its beginning
      obtain rfl : front = [] := by
        cases front with
        | nil => rfl
        | cons c front => exact absurd (hfront c List.mem_cons_self) (h.begins c rfl)
      rw [List.nil_append] at h ⊢
      cases rest with
      | nil =>
        obtain rfl := hrest.words_eq
        rw [List.append_nil]
        rfl
      | cons c rest =>
        -- a single space is behind the word, and a text on one line behind that
        have hc := hgap c rfl
        have hwords := hrest.words_eq
        rw [words_cons_of_isBlank hc] at hwords
        obtain ⟨rfl, hne, hline⟩ := h.of_append_blank hc
        have htext := ih hline hwords
        rw [unwords_cons, htext]
        rintro rfl
        exact hne htext.symm

theorem toList_oneLine (s : String) : (oneLine s).toList = unwords (words s.toList) := by
  rw [oneLine, String.toList_ofList]

/-- The text on one line is the only one with the same words. -/
theorem oneLine_eq_iff {s t : String} :
    oneLine s = t ↔ IsOneLine t.toList ∧ words t.toList = words s.toList := by
  constructor
  · rintro rfl
    rw [toList_oneLine]
    exact isOneLine_unwords (isWord_of_mem_words _)
  · rintro ⟨hline, hwords⟩
    rw [← String.toList_inj, toList_oneLine, ← hwords, hline.unwords_words]

/-- Putting a text on one line makes one on one line. -/
theorem isOneLine_oneLine (s : String) : IsOneLine (oneLine s).toList :=
  (oneLine_eq_iff.mp rfl).1

/-- Putting a text on one line keeps its words. -/
theorem words_oneLine (s : String) : words (oneLine s).toList = words s.toList :=
  (oneLine_eq_iff.mp rfl).2

/-- A text is left as it is exactly if it is on one line. -/
theorem oneLine_eq_self_iff {s : String} : oneLine s = s ↔ IsOneLine s.toList := by
  rw [oneLine_eq_iff, and_iff_left rfl]

/-- Texts are the same on one line exactly if they have the same words. -/
theorem oneLine_eq_oneLine_iff {s s' : String} :
    oneLine s = oneLine s' ↔ words s.toList = words s'.toList := by
  rw [oneLine_eq_iff, and_iff_right (isOneLine_oneLine s'), words_oneLine, eq_comm]

end Dialect.Text

import Dialect.Schema.Message
import Mathlib.Data.List.Basic

/-!
# What the hashed layout tells apart

The hashed layout writes names and types with a space behind each, and the length of an array as one
bare byte. Names without spaces can be told from what follows them, so the only place where two
layouts may run together is the boundary of two fields, where the length of an array stands right in
front of the type of the next field. There a length of 117 can be taken for the letter `u`: an array
of that length in front of a signed type looks like a scalar in front of the unsigned type of the
same width. `layoutBytes_eq_iff` says that nothing else is lost before hashing.
-/

namespace Dialect.Schema

/-- Texts with the same bytes are the same. -/
theorem textBytes_injective : Function.Injective textBytes := by
  intro s s' h
  have hbytes : s.toList.utf8Encode = s'.toList.utf8Encode := congrArg List.toByteArray h
  have hread := List.utf8Decode?_utf8Encode (l := s.toList)
  rw [hbytes, List.utf8Decode?_utf8Encode] at hread
  exact String.toList_inj.mp (congrArg Array.toList (Option.some.inj hread)).symm

/-- What stands in front of the first separator and what stands behind it. -/
theorem append_cons_eq_iff {α : Type} {sep : α} {a b x y : List α} (ha : sep ∉ a) (hb : sep ∉ b) :
    a ++ sep :: x = b ++ sep :: y ↔ a = b ∧ x = y := by
  induction a generalizing b with
  | nil =>
    rcases b with _ | ⟨c, b⟩
    · simp
    · have hne : sep ≠ c := fun h => hb (h ▸ List.mem_cons_self)
      simp [hne]
  | cons c a ih =>
    rw [List.mem_cons, not_or] at ha
    rcases b with _ | ⟨d, b⟩
    · simp [Ne.symm ha.1]
    · rw [List.cons_append, List.cons_append, List.cons.injEq, List.cons.injEq, and_assoc,
        ih ha.2 fun h => hb (List.mem_cons_of_mem d h)]

/-! ## Names of types -/

namespace Wire

/-- A signed type and the unsigned type of the same width. -/
def SignPair (w w' : Wire) : Prop :=
  ∃ n ∈ ["8", "16", "32", "64"], w.name = "int" ++ n ++ "_t" ∧ w'.name = "uint" ++ n ++ "_t"

instance (w w' : Wire) : Decidable (SignPair w w') :=
  inferInstanceAs (Decidable (∃ n ∈ _, _))

/-- There is no space in the name of a form. -/
theorem space_not_mem_name (w : Wire) : 32 ∉ textBytes w.name := by
  cases w <;> decide

theorem textBytes_name_ne_nil (w : Wire) : textBytes w.name ≠ [] := by
  cases w <;> decide

/-- A name that is another without its first letter is that of the signed form. -/
theorem signPair_of_tail_eq {w w' : Wire} :
    (textBytes w'.name).tail = textBytes w.name → SignPair w w' := by
  cases w <;> cases w' <;> decide

/-- The name of the unsigned form is that of the signed one with a letter in front. -/
theorem SignPair.cons_eq {w w' : Wire} :
    SignPair w w' → 117 :: textBytes w.name = textBytes w'.name := by
  cases w <;> cases w' <;> decide

/-- The name of a type is that of another with one byte in front only if the byte is a `u` and
makes an unsigned type of a signed one. -/
theorem cons_name_eq_iff {a : UInt8} {w w' : Wire} :
    a :: textBytes w.name = textBytes w'.name ↔ a = 117 ∧ SignPair w w' := by
  constructor
  · intro h
    have hpair : SignPair w w' := signPair_of_tail_eq (by rw [← h]; rfl)
    rw [← hpair.cons_eq] at h
    exact ⟨(List.cons.inj h).1, hpair⟩
  · rintro ⟨rfl, hpair⟩
    exact hpair.cons_eq

end Wire

/-! ## Boundaries -/

/-- An array of 117 elements in front of a signed type, and a scalar in front of the unsigned type
of the same width: `f` and `g` are the fields, `f'` and `g'` those behind them. -/
def Blurred (f f' g g' : Field) : Prop :=
  f.arity = 117 ∧ g.arity = 1 ∧ f'.type.wire.SignPair g'.type.wire

/-- The layout does not show whether `f` and `f'` or `g` and `g'` stand there: the arities and the
types are the same, or a length may be taken for a letter. -/
def SameBoundary (f f' g g' : Field) : Prop :=
  (f.arity = g.arity ∧ f'.type.wire.name = g'.type.wire.name) ∨ Blurred f f' g g' ∨
    Blurred g g' f f'

/-- The byte that holds the length of an array. -/
def Field.lengthByte (f : Field) : List UInt8 := if f.isArray then [f.arity] else []

theorem Field.lengthByte_of_lt {f : Field} (h : 1 < f.arity) : f.lengthByte = [f.arity] :=
  if_pos (decide_eq_true h)

theorem Field.lengthByte_of_eq {f : Field} (h : f.arity = 1) : f.lengthByte = [] := by
  rw [lengthByte, isArray, h]
  rfl

/-- A field with elements is a scalar or an array. -/
theorem Field.arity_eq_or_lt {f : Field} (h : 1 ≤ f.arity) : f.arity = 1 ∨ 1 < f.arity := by
  rcases UInt8.lt_or_eq_of_le h with hlt | heq
  · exact .inr hlt
  · exact .inl heq.symm

/-- Where no field follows, the length byte gives the arity. -/
theorem lengthByte_eq_iff {f g : Field} (hf : 1 ≤ f.arity) (hg : 1 ≤ g.arity) :
    f.lengthByte = g.lengthByte ↔ f.arity = g.arity := by
  rcases f.arity_eq_or_lt hf with hf | hf <;> rcases g.arity_eq_or_lt hg with hg | hg
  · simp [Field.lengthByte_of_eq hf, Field.lengthByte_of_eq hg, hf, hg]
  · rw [Field.lengthByte_of_eq hf, Field.lengthByte_of_lt hg, hf]
    simpa using UInt8.ne_of_lt hg
  · rw [Field.lengthByte_of_lt hf, Field.lengthByte_of_eq hg, hg]
    simpa using (UInt8.ne_of_lt hf).symm
  · simp [Field.lengthByte_of_lt hf, Field.lengthByte_of_lt hg]

/-- An array in front of a type looks like a scalar in front of a type only if its length looks like
a letter. -/
theorem cons_name_append_eq_iff {a : UInt8} {w w' : Wire} {x y : List UInt8} :
    a :: (textBytes w.name ++ 32 :: x) = textBytes w'.name ++ 32 :: y ↔
      (a = 117 ∧ w.SignPair w') ∧ x = y := by
  by_cases hspace : a = 32
  · -- a type does not begin with a space
    obtain ⟨c, rest, hname⟩ := List.exists_cons_of_ne_nil w'.textBytes_name_ne_nil
    have hne : c ≠ 32 := by
      rintro rfl
      exact w'.space_not_mem_name (by rw [hname]; exact List.mem_cons_self)
    rw [hname, hspace]
    constructor
    · intro h
      exact absurd (List.cons.inj h).1.symm hne
    · rintro ⟨⟨h, -⟩, -⟩
      exact absurd h (by decide)
  · have hfree : 32 ∉ a :: textBytes w.name :=
      List.not_mem_cons_of_ne_of_not_mem (Ne.symm hspace) w.space_not_mem_name
    rw [← List.cons_append, append_cons_eq_iff hfree w'.space_not_mem_name, Wire.cons_name_eq_iff]

/-- What stands between the names of two fields shows what `SameBoundary` says, and no more. -/
theorem lengthByte_append_eq_iff {f f' g g' : Field} (hf : 1 ≤ f.arity) (hg : 1 ≤ g.arity)
    {x y : List UInt8} :
    f.lengthByte ++ (textBytes f'.type.wire.name ++ 32 :: x) =
        g.lengthByte ++ (textBytes g'.type.wire.name ++ 32 :: y) ↔
      SameBoundary f f' g g' ∧ x = y := by
  have hnames : ∀ {x y : List UInt8}, textBytes f'.type.wire.name ++ 32 :: x =
      textBytes g'.type.wire.name ++ 32 :: y ↔
        f'.type.wire.name = g'.type.wire.name ∧ x = y := by
    intro x y
    rw [append_cons_eq_iff (Wire.space_not_mem_name _) (Wire.space_not_mem_name _),
      textBytes_injective.eq_iff]
  -- a scalar has no byte for its length, so what is behind it may be taken for one
  rcases f.arity_eq_or_lt hf with hf | hf <;> rcases g.arity_eq_or_lt hg with hg | hg
  · rw [Field.lengthByte_of_eq hf, Field.lengthByte_of_eq hg, List.nil_append, List.nil_append,
      hnames]
    simp [SameBoundary, Blurred, hf, hg]
  · rw [Field.lengthByte_of_eq hf, Field.lengthByte_of_lt hg, List.nil_append, List.singleton_append,
      eq_comm, cons_name_append_eq_iff, @eq_comm _ y]
    have hne := (UInt8.ne_of_lt hg).symm
    simp [SameBoundary, Blurred, hf, hne, hne.symm]
  · rw [Field.lengthByte_of_lt hf, Field.lengthByte_of_eq hg, List.nil_append, List.singleton_append,
      cons_name_append_eq_iff]
    have hne := (UInt8.ne_of_lt hf).symm
    simp [SameBoundary, Blurred, hg, hne]
  · rw [Field.lengthByte_of_lt hf, Field.lengthByte_of_lt hg, List.singleton_append,
      List.singleton_append, List.cons.injEq, hnames]
    have hfne := (UInt8.ne_of_lt hf).symm
    have hgne := (UInt8.ne_of_lt hg).symm
    simp [SameBoundary, Blurred, hfne, hgne, and_assoc]

/-! ## Fields -/

/-- The layout of fields without the type of the first, which is `f`. -/
def layoutBehind (f : Field) (rest : List Field) : List UInt8 :=
  32 :: (textBytes f.schemaName ++ 32 :: (f.lengthByte ++ rest.flatMap Field.layoutBytes))

theorem flatMap_layoutBytes_cons (f : Field) (rest : List Field) :
    (f :: rest).flatMap Field.layoutBytes = textBytes f.type.wire.name ++ layoutBehind f rest := by
  simp [Field.layoutBytes, Field.lengthByte, layoutBehind]

/-- Behind the names of types, fields are told apart by their own names and what follows. -/
theorem layoutBehind_eq_iff_lengthByte {f g : Field} {fs gs : List Field}
    (hf : 32 ∉ textBytes f.schemaName) (hg : 32 ∉ textBytes g.schemaName) :
    layoutBehind f fs = layoutBehind g gs ↔ f.schemaName = g.schemaName ∧
      f.lengthByte ++ fs.flatMap Field.layoutBytes =
        g.lengthByte ++ gs.flatMap Field.layoutBytes := by
  rw [layoutBehind, layoutBehind, List.cons.injEq, append_cons_eq_iff hf hg,
    textBytes_injective.eq_iff]
  exact and_iff_right rfl

/-- No field fits into the place of a length byte. -/
theorem lengthByte_ne_append_layoutBytes (f g h : Field) (rest : List Field) :
    f.lengthByte ≠ g.lengthByte ++ (h :: rest).flatMap Field.layoutBytes := by
  intro heq
  have hlength := congrArg List.length heq
  rw [flatMap_layoutBytes_cons, layoutBehind, Field.lengthByte] at hlength
  simp only [List.length_append, List.length_cons] at hlength
  split at hlength
  · simp at hlength
    omega
  · simp at hlength

/-- What the layout of fields shows behind the type of the first. -/
structure SameBehind (fs gs : List Field) : Prop where
  length_eq : fs.length = gs.length
  name_eq : ∀ (i : Nat) (f g : Field), fs[i]? = some f → gs[i]? = some g → f.schemaName = g.schemaName
  last_eq : fs.getLast?.map Field.arity = gs.getLast?.map Field.arity
  boundary : ∀ (i : Nat) (f f' g g' : Field), fs[i]? = some f → fs[i + 1]? = some f' →
    gs[i]? = some g → gs[i + 1]? = some g' → SameBoundary f f' g g'

theorem sameBehind_singleton_iff {f g : Field} :
    SameBehind [f] [g] ↔ f.schemaName = g.schemaName ∧ f.arity = g.arity := by
  constructor
  · intro h
    exact ⟨h.name_eq 0 f g rfl rfl, Option.some.inj h.last_eq⟩
  · rintro ⟨hname, harity⟩
    refine ⟨rfl, ?_, congrArg some harity, by simp⟩
    intro i f' g' hf' hg'
    rw [List.getElem?_singleton] at hf' hg'
    split at hf'
    · next hi =>
      rw [if_pos hi] at hg'
      rw [← Option.some.inj hf', ← Option.some.inj hg', hname]
    · exact absurd hf' (by simp)

/-- Fields behind the first are compared boundary by boundary. -/
theorem sameBehind_cons_iff {f f' g g' : Field} {fs gs : List Field} :
    SameBehind (f :: f' :: fs) (g :: g' :: gs) ↔
      f.schemaName = g.schemaName ∧ SameBoundary f f' g g' ∧
        SameBehind (f' :: fs) (g' :: gs) := by
  constructor
  · intro h
    refine ⟨h.name_eq 0 f g rfl rfl, h.boundary 0 f f' g g' rfl rfl rfl rfl, ?_⟩
    exact ⟨Nat.succ.inj h.length_eq, fun i => h.name_eq (i + 1), h.last_eq,
      fun i => h.boundary (i + 1)⟩
  · rintro ⟨hname, hboundary, hrest⟩
    refine ⟨congrArg Nat.succ hrest.length_eq, ?_, hrest.last_eq, ?_⟩
    -- the first field or boundary is the one given, and the others are those of the rest
    · rintro (_ | i) f₁ g₁ hf₁ hg₁
      · rw [← Option.some.inj hf₁, ← Option.some.inj hg₁, hname]
      · exact hrest.name_eq i f₁ g₁ hf₁ hg₁
    · rintro (_ | i) f₁ f₂ g₁ g₂ hf₁ hf₂ hg₁ hg₂
      · obtain rfl := Option.some.inj hf₁
        obtain rfl := Option.some.inj hf₂
        obtain rfl := Option.some.inj hg₁
        obtain rfl := Option.some.inj hg₂
        exact hboundary
      · exact hrest.boundary i f₁ f₂ g₁ g₂ hf₁ hf₂ hg₁ hg₂

/-- Behind the type of the first field the layout shows what `SameBehind` says, and no more. -/
theorem layoutBehind_eq_iff {f g : Field} {fs gs : List Field}
    (hfs : ∀ h ∈ f :: fs, 32 ∉ textBytes h.schemaName ∧ 1 ≤ h.arity)
    (hgs : ∀ h ∈ g :: gs, 32 ∉ textBytes h.schemaName ∧ 1 ≤ h.arity) :
    layoutBehind f fs = layoutBehind g gs ↔ SameBehind (f :: fs) (g :: gs) := by
  -- on the fields of one side; what stands between two names is told by `lengthByte_append_eq_iff`
  induction fs generalizing f g gs with
  | nil =>
    rw [List.forall_mem_cons] at hfs hgs
    rw [layoutBehind_eq_iff_lengthByte hfs.1.1 hgs.1.1]
    -- where one side ends, the other side must end as well
    rcases gs with _ | ⟨g', gs⟩
    · rw [sameBehind_singleton_iff, List.flatMap_nil, List.append_nil, List.append_nil,
        lengthByte_eq_iff hfs.1.2 hgs.1.2]
    · rw [List.flatMap_nil, List.append_nil]
      constructor
      · rintro ⟨-, h⟩
        exact absurd h (lengthByte_ne_append_layoutBytes f g g' gs)
      · intro h
        exact absurd h.length_eq (by simp)
  | cons f' fs ih =>
    rw [List.forall_mem_cons] at hfs hgs
    rw [layoutBehind_eq_iff_lengthByte hfs.1.1 hgs.1.1]
    rcases gs with _ | ⟨g', gs⟩
    · rw [List.flatMap_nil, List.append_nil]
      constructor
      · rintro ⟨-, h⟩
        exact absurd h.symm (lengthByte_ne_append_layoutBytes g f f' fs)
      · intro h
        exact absurd h.length_eq (by simp)
    · rw [sameBehind_cons_iff, ← ih hfs.2 hgs.2, flatMap_layoutBytes_cons,
        flatMap_layoutBytes_cons, layoutBehind, layoutBehind,
        lengthByte_append_eq_iff hfs.1.2 hgs.1.2, List.cons.injEq]
      simp

/-- **What the hashed layout tells apart.** Let there be no space in the upper-case names of two
messages and in the names of their fields, and let every field have at least one element. Then the
two layouts are the same bytes exactly if the upper-case names are the same, there are as many
fields, the names of the fields are the same one by one, the first fields have the same type, the
last ones the same arity, and at the boundary of any two fields that follow each other the arity in
front and the type behind are the same too, or one message has an array of 117 elements there in
front of a signed type and the other a scalar in front of the unsigned type of the same width. -/
theorem layoutBytes_eq_iff (name₁ name₂ : String) (fs gs : List Field)
    (hname₁ : 32 ∉ textBytes (Text.upper name₁)) (hname₂ : 32 ∉ textBytes (Text.upper name₂))
    (hfs : ∀ f ∈ fs, 32 ∉ textBytes f.schemaName ∧ 1 ≤ f.arity)
    (hgs : ∀ g ∈ gs, 32 ∉ textBytes g.schemaName ∧ 1 ≤ g.arity) :
    layoutBytes name₁ fs = layoutBytes name₂ gs ↔
      Text.upper name₁ = Text.upper name₂ ∧ fs.length = gs.length ∧
        (∀ (i : Nat) (f g : Field), fs[i]? = some f → gs[i]? = some g →
          f.schemaName = g.schemaName) ∧
        (fs.head?.map fun f => f.type.wire.name) = (gs.head?.map fun g => g.type.wire.name) ∧
        fs.getLast?.map Field.arity = gs.getLast?.map Field.arity ∧
        ∀ (i : Nat) (f f' g g' : Field), fs[i]? = some f → fs[i + 1]? = some f' →
          gs[i]? = some g → gs[i + 1]? = some g' →
            (f.arity = g.arity ∧ f'.type.wire.name = g'.type.wire.name) ∨ Blurred f f' g g' ∨
              Blurred g g' f f' := by
  rw [layoutBytes, layoutBytes, append_cons_eq_iff hname₁ hname₂, textBytes_injective.eq_iff]
  refine and_congr_right fun _ => ?_
  -- a space ends each name, and the type of the first field has no boundary in front of it
  rcases fs with _ | ⟨f, fs⟩ <;> rcases gs with _ | ⟨g, gs⟩
  · simp
  · rw [flatMap_layoutBytes_cons]
    simp [layoutBehind]
  · rw [flatMap_layoutBytes_cons]
    simp [layoutBehind]
  · rw [flatMap_layoutBytes_cons, flatMap_layoutBytes_cons, layoutBehind, layoutBehind,
      append_cons_eq_iff (Wire.space_not_mem_name _) (Wire.space_not_mem_name _),
      textBytes_injective.eq_iff]
    have hbehind := layoutBehind_eq_iff hfs hgs
    rw [layoutBehind, layoutBehind, List.cons.injEq] at hbehind
    constructor
    · rintro ⟨htype, h⟩
      obtain ⟨hlength, hnames, hlast, hboundary⟩ := hbehind.mp ⟨rfl, h⟩
      exact ⟨hlength, hnames, congrArg some htype, hlast, hboundary⟩
    · rintro ⟨hlength, hnames, htype, hlast, hboundary⟩
      exact ⟨Option.some.inj htype, (hbehind.mpr ⟨hlength, hnames, hlast, hboundary⟩).2⟩

/-- An array of 117 elements in front of a signed number. -/
def arrayThenSigned : List Field :=
  [.declare "Gain" (.plain .int32) 117 "", .declare "Trim" (.plain .int16) 1 ""]

/-- A scalar in front of an unsigned number. -/
def scalarThenUnsigned : List Field :=
  [.declare "Gain" (.plain .int32) 1 "", .declare "Trim" (.plain .uint16) 1 ""]

/-- An array in front of a signed type, and a scalar in front of the unsigned one. -/
theorem layoutBytes_eq_iff_sample :
    32 ∉ textBytes (Text.upper "Servo") ∧ 32 ∉ textBytes (Text.upper "SERVO") ∧
      (∀ f ∈ arrayThenSigned, 32 ∉ textBytes f.schemaName ∧ 1 ≤ f.arity) ∧
      (∀ f ∈ scalarThenUnsigned, 32 ∉ textBytes f.schemaName ∧ 1 ≤ f.arity) ∧
      layoutBytes "Servo" arrayThenSigned = layoutBytes "SERVO" scalarThenUnsigned ∧
      Text.upper "Servo" = Text.upper "SERVO" ∧
      ∃ f f' g g', arrayThenSigned = [f, f'] ∧ scalarThenUnsigned = [g, g'] ∧
        ((f.arity = g.arity ∧ f'.type.wire.name = g'.type.wire.name) ∨ Blurred f f' g g' ∨
          Blurred g g' f f') := by
  have hupper : 32 ∉ textBytes (Text.upper "Servo") := by decide
  have hsame : 32 ∉ textBytes (Text.upper "SERVO") := by decide
  have hfs : ∀ f ∈ arrayThenSigned, 32 ∉ textBytes f.schemaName ∧ 1 ≤ f.arity := by decide
  have hgs : ∀ g ∈ scalarThenUnsigned, 32 ∉ textBytes g.schemaName ∧ 1 ≤ g.arity := by decide
  have hlayout : layoutBytes "Servo" arrayThenSigned = layoutBytes "SERVO" scalarThenUnsigned := by
    decide
  obtain ⟨hname, -, -, -, -, hboundary⟩ :=
    (layoutBytes_eq_iff "Servo" "SERVO" arrayThenSigned scalarThenUnsigned hupper hsame hfs
      hgs).mp hlayout
  exact ⟨hupper, hsame, hfs, hgs, hlayout, hname, _, _, _, _, rfl, rfl,
    hboundary 0 _ _ _ _ rfl rfl rfl rfl⟩

end Dialect.Schema

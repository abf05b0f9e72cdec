import Dialect.Proofs.Schema.WireOrder

/-!
# The order of alignment classes

The wire order is made by placing one declared field after the other. It comes to this: the fields
of the widest class, then those of the next, each class in the order of declaration
(`wireOrder_eq`). Placing a field does not move fields of one class past each other
(`ofClass_wireOrder`), and a list in the order of the classes is the list of its classes
(`classByClass_of_pairwise`). So declarations that agree class by class make the same message.
-/

namespace Dialect.Schema

/-! ## Class by class -/

/-- The fields of one alignment class, in the order in which they stand. -/
def ofClass (c : AlignmentClass) (fields : List Field) : List Field :=
  fields.filter fun f => f.type.alignment = c

/-- The fields class by class, the widest class in front. -/
def classByClass (fields : List Field) : List Field :=
  ofClass .wide fields ++ ofClass .word fields ++ ofClass .half fields ++ ofClass .byte fields

theorem ofClass_cons (c : AlignmentClass) (f : Field) (fields : List Field) :
    ofClass c (f :: fields) =
      if f.type.alignment = c then f :: ofClass c fields else ofClass c fields := by
  simp [ofClass, List.filter_cons]

/-- A field is placed in front of all others of its class, and the others stay as they are. -/
theorem ofClass_place (c : AlignmentClass) (f : Field) (fields : List Field) :
    ofClass c (place f fields) = ofClass c (f :: fields) := by
  induction fields with
  | nil => rfl
  | cons g rest ih =>
    rw [place]
    split
    · rfl
    · next hrank =>
      -- the field goes past `g`, which therefore is of another class
      have hne : f.type.alignment ≠ g.type.alignment := fun h =>
        hrank (Nat.le_of_eq (congrArg AlignmentClass.rank h))
      rw [ofClass_cons, ih, ofClass_cons, ofClass_cons, ofClass_cons]
      by_cases hg : g.type.alignment = c
      · rw [if_pos hg, if_pos hg, if_neg fun hf => hne (hf.trans hg.symm),
          if_neg fun hf => hne (hf.trans hg.symm)]
      · rw [if_neg hg, if_neg hg]

/-- In wire order the fields of one class stand as they are declared. -/
theorem ofClass_wireOrder (c : AlignmentClass) (declared : List Field) :
    ofClass c (wireOrder declared) = ofClass c declared := by
  induction declared with
  | nil => rfl
  | cons f rest ih =>
    rw [wireOrder, List.foldr_cons, ← wireOrder, ofClass_place, ofClass_cons, ofClass_cons, ih]

/-- Where all ranks are higher, nothing is of the class. -/
theorem ofClass_eq_nil {c : AlignmentClass} {fields : List Field}
    (h : ∀ f ∈ fields, c.rank < f.rank) : ofClass c fields = [] := by
  refine List.filter_eq_nil_iff.mpr fun f hf hclass => ?_
  have hrank : f.rank = c.rank := congrArg AlignmentClass.rank (of_decide_eq_true hclass)
  exact Nat.ne_of_gt (h f hf) hrank

/-- A field stands in front of all others if there are none of a wider class. -/
theorem classByClass_cons {f : Field} {fields : List Field}
    (h : ∀ c : AlignmentClass, c.rank < f.type.alignment.rank → ofClass c fields = []) :
    classByClass (f :: fields) = f :: classByClass fields := by
  -- the classes are listed from the widest down, and those in front of the field are empty
  cases hclass : f.type.alignment with
  | wide => simp [classByClass, ofClass_cons, hclass]
  | word =>
    have hwide := h .wide (by rw [hclass]; decide)
    simp [classByClass, ofClass_cons, hclass, hwide]
  | half =>
    have hwide := h .wide (by rw [hclass]; decide)
    have hword := h .word (by rw [hclass]; decide)
    simp [classByClass, ofClass_cons, hclass, hwide, hword]
  | byte =>
    have hwide := h .wide (by rw [hclass]; decide)
    have hword := h .word (by rw [hclass]; decide)
    have hhalf := h .half (by rw [hclass]; decide)
    simp [classByClass, ofClass_cons, hclass, hwide, hword, hhalf]

/-- Fields in the order of their classes stand class by class. -/
theorem classByClass_of_pairwise {fields : List Field}
    (h : fields.Pairwise fun f g => f.rank ≤ g.rank) : classByClass fields = fields := by
  induction fields with
  | nil => rfl
  | cons f rest ih =>
    obtain ⟨hfirst, hrest⟩ := List.pairwise_cons.mp h
    rw [classByClass_cons, ih hrest]
    exact fun c hc => ofClass_eq_nil fun g hg => Nat.lt_of_lt_of_le hc (hfirst g hg)

/-- The wire order is the order of the classes, each as it is declared. -/
theorem wireOrder_eq (declared : List Field) : wireOrder declared = classByClass declared := by
  rw [← classByClass_of_pairwise (pairwise_wireOrder declared)]
  simp only [classByClass, ofClass_wireOrder]

/-- Fields that are the same class by class are the same in some order. -/
theorem ofClass_perm {declared others : List Field}
    (h : ∀ c, ofClass c declared = ofClass c others) : declared.Perm others := by
  have hsame : wireOrder declared = wireOrder others := by
    simp only [wireOrder_eq, classByClass, h]
  exact (wireOrder_perm declared).symm.trans (hsame ▸ wireOrder_perm others)

/-! ## Repeated names -/

/-- The field found is the first that has the name of one before it, or a name that was seen. -/
theorem firstRepeat?_eq_some_iff {seen : List String} {declared : List Field} {f : Field} :
    firstRepeat? seen declared = some f ↔ ∃ front back, declared = front ++ f :: back ∧
      firstRepeat? seen front = none ∧ (f.name ∈ seen ∨ f.name ∈ front.map Field.name) := by
  induction declared generalizing seen with
  | nil => simp [firstRepeat?]
  | cons g rest ih =>
    rw [firstRepeat?]
    split
    · next hseen =>
      constructor
      · intro h
        obtain rfl := Option.some.inj h
        exact ⟨[], rest, rfl, rfl, .inl hseen⟩
      · rintro ⟨front, back, hsplit, hfront, -⟩
        cases front with
        | nil => rw [(List.cons.inj hsplit).1]
        | cons g' front =>
          -- `g` itself would be found in front of the field
          obtain ⟨rfl, -⟩ := List.cons.inj hsplit
          rw [firstRepeat?, if_pos hseen] at hfront
          exact absurd hfront (by simp)
    · next hseen =>
      rw [ih]
      constructor
      · rintro ⟨front, back, rfl, hfront, hname⟩
        refine ⟨g :: front, back, rfl, by rw [firstRepeat?, if_neg hseen, hfront], ?_⟩
        simpa [or_comm, or_assoc, or_left_comm] using hname
      · rintro ⟨front, back, hsplit, hfront, hname⟩
        cases front with
        | nil =>
          obtain ⟨rfl, -⟩ := List.cons.inj hsplit
          exact absurd hname (by simp [hseen])
        | cons g' front =>
          obtain ⟨rfl, rfl⟩ := List.cons.inj hsplit
          rw [firstRepeat?, if_neg hseen] at hfront
          refine ⟨front, back, rfl, hfront, ?_⟩
          simpa [or_comm, or_assoc, or_left_comm] using hname

/-- Declared fields are refused for the first that has the name of one before it. -/
theorem Message.layOut_eq_error_iff {id : UInt8} {name : String} {description : Option String}
    {declared : List Field} {fault : Fault} :
    Message.layOut id name description declared = .error fault ↔
      ∃ front f back, declared = front ++ f :: back ∧ (front.map Field.name).Nodup ∧
        f.name ∈ front.map Field.name ∧ fault = .duplicateField name f.name := by
  have hfound : Message.layOut id name description declared = .error fault ↔
      ∃ f, firstRepeat? [] declared = some f ∧ fault = .duplicateField name f.name := by
    rw [Message.layOut]
    cases firstRepeat? [] declared <;> simp [eq_comm]
  rw [hfound]
  simp only [firstRepeat?_eq_some_iff, firstRepeat?_eq_none_iff, List.not_mem_nil, false_or]
  constructor
  · rintro ⟨f, ⟨front, back, hsplit, ⟨hnodup, -⟩, hname⟩, hfault⟩
    exact ⟨front, f, back, hsplit, hnodup, hname, hfault⟩
  · rintro ⟨front, f, back, hsplit, hnodup, hname, hfault⟩
    exact ⟨f, ⟨front, back, hsplit, ⟨hnodup, by simp⟩, hname⟩, hfault⟩

/-! ## What is laid out -/

/-- What a schema says about a field. -/
structure Declaration where
  schemaName : String
  type : Primitive
  arity : UInt8
  description : String
  deriving DecidableEq, Repr

namespace Declaration

/-- The declared field. -/
def field (d : Declaration) : Field := .declare d.schemaName d.type d.arity d.description

/-- The name of the field, in lower case. -/
def name (d : Declaration) : String := Text.lower d.schemaName

/-- The number of bytes that the declared elements take. -/
def size (d : Declaration) : Nat := d.type.width * d.arity.toNat

/-- The declarations of one alignment class, in the order in which they stand. -/
def ofClass (c : AlignmentClass) (declarations : List Declaration) : List Declaration :=
  declarations.filter fun d => d.type.alignment = c

/-- The names of fields are those of their declarations. -/
theorem map_name_field (declarations : List Declaration) :
    (declarations.map field).map Field.name = declarations.map name := by
  rw [List.map_map]
  rfl

/-- Taking out a class goes the same with declarations and with fields. -/
theorem ofClass_map_field (c : AlignmentClass) (declarations : List Declaration) :
    Schema.ofClass c (declarations.map field) = (ofClass c declarations).map field := by
  rw [Schema.ofClass, List.filter_map]
  rfl

end Declaration

/-- The message with the given declarations, unless two of them are of the same name. -/
def layOutDeclared (id : UInt8) (name : String) (description : Option String)
    (declarations : List Declaration) : Except Fault Message :=
  Message.layOut id name description (declarations.map Declaration.field)

section LayOut

variable {id : UInt8} {name : String} {description : Option String}
  {declarations others : List Declaration} {m : Message} {fault : Fault}

/-- Declarations are laid out, class by class, exactly if their names are distinct. -/
theorem layOutDeclared_eq_ok_iff :
    layOutDeclared id name description declarations = .ok m ↔
      (declarations.map Declaration.name).Nodup ∧
        m = ⟨id, name, description, classByClass (declarations.map Declaration.field)⟩ := by
  rw [layOutDeclared, Message.layOut_eq_ok_iff, Declaration.map_name_field, wireOrder_eq]

/-- Declarations are refused for the first name that has been there before. -/
theorem layOutDeclared_eq_error_iff :
    layOutDeclared id name description declarations = .error fault ↔
      ∃ front d back, declarations = front ++ d :: back ∧ (front.map Declaration.name).Nodup ∧
        d.name ∈ front.map Declaration.name ∧ fault = .duplicateField name d.name := by
  rw [layOutDeclared, Message.layOut_eq_error_iff]
  constructor
  · rintro ⟨front, f, back, hsplit, hnodup, hname, hfault⟩
    obtain ⟨front, rest, rfl, rfl, hrest⟩ := List.map_eq_append_iff.mp hsplit
    obtain ⟨d, back, rfl, rfl, rfl⟩ := List.map_eq_cons_iff.mp hrest
    rw [Declaration.map_name_field] at hnodup hname
    exact ⟨front, d, back, rfl, hnodup, hname, hfault⟩
  · rintro ⟨front, d, back, rfl, hnodup, hname, hfault⟩
    rw [← Declaration.map_name_field] at hnodup hname
    exact ⟨_, d.field, _, List.map_append, hnodup, hname, hfault⟩

/-- Declarations are refused for a repeated name and for nothing else. -/
theorem exists_duplicate_iff :
    (∃ field, layOutDeclared id name description declarations =
      .error (.duplicateField name field)) ↔ ¬ (declarations.map Declaration.name).Nodup := by
  constructor
  · rintro ⟨field, h⟩ hnodup
    rw [layOutDeclared_eq_ok_iff.mpr ⟨hnodup, rfl⟩] at h
    exact absurd h (by simp)
  · intro hrepeat
    cases hresult : layOutDeclared id name description declarations with
    | ok m => exact absurd (layOutDeclared_eq_ok_iff.mp hresult).1 hrepeat
    | error fault =>
      obtain ⟨_, d, _, _, _, _, rfl⟩ := layOutDeclared_eq_error_iff.mp hresult
      exact ⟨d.name, rfl⟩

/-- The order of fields has no part in the length of the payload. -/
theorem payloadLength_classByClass :
    Message.payloadLength ⟨id, name, description, classByClass (declarations.map Declaration.field)⟩
      = (declarations.map Declaration.size).sum := by
  rw [Message.payloadLength_eq_sum, ← wireOrder_eq, ((wireOrder_perm _).map _).sum_nat,
    List.map_map]
  rfl

/-- Declarations that agree class by class make the same message. -/
theorem layOutDeclared_of_ofClass
    (h : ∀ c, Declaration.ofClass c declarations = Declaration.ofClass c others)
    (hm : layOutDeclared id name description declarations = .ok m) :
    layOutDeclared id name description others = .ok m := by
  obtain ⟨hnodup, rfl⟩ := layOutDeclared_eq_ok_iff.mp hm
  have hclass : ∀ c, ofClass c (declarations.map Declaration.field) =
      ofClass c (others.map Declaration.field) := fun c => by
    rw [Declaration.ofClass_map_field, h c, Declaration.ofClass_map_field]
  have hnames := (ofClass_perm hclass).map Field.name
  rw [Declaration.map_name_field, Declaration.map_name_field] at hnames
  refine layOutDeclared_eq_ok_iff.mpr ⟨hnames.nodup_iff.mp hnodup, ?_⟩
  simp only [classByClass, hclass]

end LayOut

/-- **The layout rule.** Declared fields are refused exactly if two of them have the same name in
lower case, and then for the first that has the name of one declared before it. All others make a
message whose fields are the declared ones of the widest class, then those of the next two, then
the bytes, each class in the order of declaration. Its payload is as long as all declared elements
together, and its code is the folded checksum of its name and of the fields in this order. Only the
order within each class counts: declarations that agree class by class make the same message, or
none. -/
theorem layOut_by_class (id : UInt8) (name : String) (description : Option String)
    (declarations : List Declaration) :
    (∀ fault, layOutDeclared id name description declarations = .error fault ↔
      ∃ front d back, declarations = front ++ d :: back ∧ (front.map Declaration.name).Nodup ∧
        d.name ∈ front.map Declaration.name ∧ fault = .duplicateField name d.name) ∧
    ((∃ field, layOutDeclared id name description declarations =
        .error (.duplicateField name field)) ↔ ¬ (declarations.map Declaration.name).Nodup) ∧
    ((declarations.map Declaration.name).Nodup →
      ∃ m, layOutDeclared id name description declarations = .ok m ∧
        m.id = id ∧ m.name = name ∧ m.description = description ∧
        m.fields = (Declaration.ofClass .wide declarations ++
          Declaration.ofClass .word declarations ++ Declaration.ofClass .half declarations ++
          Declaration.ofClass .byte declarations).map Declaration.field ∧
        m.payloadLength = (declarations.map Declaration.size).sum ∧
        m.code = Checksum.fold (Checksum.accumulate Checksum.seed (layoutBytes name m.fields))) ∧
    ∀ others, (∀ c, Declaration.ofClass c declarations = Declaration.ofClass c others) → ∀ m,
      layOutDeclared id name description declarations = .ok m ↔
        layOutDeclared id name description others = .ok m := by
  refine ⟨fun fault => layOutDeclared_eq_error_iff, exists_duplicate_iff, fun hnodup => ?_,
    fun others h m => ⟨layOutDeclared_of_ofClass h, layOutDeclared_of_ofClass fun c => (h c).symm⟩⟩
  refine ⟨_, layOutDeclared_eq_ok_iff.mpr ⟨hnodup, rfl⟩, rfl, rfl, rfl, ?_,
    payloadLength_classByClass, rfl⟩
  simp only [classByClass, Declaration.ofClass_map_field, List.map_append]

/-- Declarations of three classes, the widest last. -/
def sampleDeclarations : List Declaration :=
  [⟨"flags", .plain .uint8, 1, ""⟩, ⟨"Axes", .plain .int16, 3, ""⟩, ⟨"mode", .plain .char, 4, ""⟩,
    ⟨"time", .plain .uint64, 1, ""⟩]

/-- Four classes, declared in two orders, and a name that comes again in capitals. -/
theorem layOut_by_class_sample :
    (sampleDeclarations.map Declaration.name).Nodup ∧
      (∃ m, layOutDeclared 1 "M" none sampleDeclarations = .ok m ∧
        m.fields.map Field.name = ["time", "axes", "flags", "mode"] ∧ m.payloadLength = 19 ∧
        layOutDeclared 1 "M" none (sampleDeclarations.rotate 3) = .ok m) ∧
      layOutDeclared 1 "M" none (sampleDeclarations ++ [⟨"AXES", .plain .double, 1, ""⟩]) =
        .error (.duplicateField "M" "axes") := by
  have hnodup : (sampleDeclarations.map Declaration.name).Nodup := by decide
  obtain ⟨-, -, hmade, hagree⟩ := layOut_by_class 1 "M" none sampleDeclarations
  obtain ⟨hrefused, -⟩ :=
    layOut_by_class 1 "M" none (sampleDeclarations ++ [⟨"AXES", .plain .double, 1, ""⟩])
  obtain ⟨m, hm, -, -, -, hfields, hlength, -⟩ := hmade hnodup
  refine ⟨hnodup, ⟨m, hm, by rw [hfields]; decide, by rw [hlength]; decide, ?_⟩, ?_⟩
  · exact (hagree (sampleDeclarations.rotate 3) (by intro c; cases c <;> decide) m).mp hm
  · exact (hrefused _).mpr ⟨sampleDeclarations, _, [], rfl, hnodup, by decide, by decide⟩

end Dialect.Schema

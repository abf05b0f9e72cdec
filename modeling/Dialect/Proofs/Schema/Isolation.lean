import Dialect.Proofs.Schema.Verdict

/-!
# Faults that stop and faults that stand alone

Enumerations are compiled under two policies. All those of one block stop at the first fault
(`enumerationsOfElement`), those of a document are compiled whatever becomes of the others. Under
the first policy the results are answers, or what is left of them is their first fault
(`mapM_eq_ok_iff_map`, `firstFault_iff_failures`), so both read the same list of results. Blocks do
not matter to it: the first fault of the first block that has one is the first fault of the items of
all blocks (`firstFault_flatMap_iff`).
-/

namespace Dialect.Markup.Element

/-- The element without its children of the given tag. -/
def withoutTag (e : Element) (tag : String) : Element :=
  { e with children := e.children.filter (·.name != tag) }

/-- Without the children of one tag, those of the others are there as before. -/
theorem childrenNamed_withoutTag {e : Element} {tag other : String} :
    (e.withoutTag other).childrenNamed tag = if tag = other then [] else e.childrenNamed tag := by
  unfold withoutTag childrenNamed
  rw [List.filter_filter]
  split
  · next hsame =>
    apply List.filter_eq_nil_iff.mpr
    intro child _
    simp [hsame]
  · next hother =>
    apply List.filter_congr
    intro child _
    by_cases hchild : child.name = tag
    · simp [hchild, hother]
    · simp [hchild]

end Dialect.Markup.Element

namespace Dialect.Schema.Document

open Dialect.Markup (Element)

/-! ## Results under the two policies -/

section Results

variable {α β : Type} {f : α → Except Fault β} {xs : List α}

theorem successes_map_ok (ys : List β) : successes (ys.map .ok) = ys := by
  induction ys with
  | nil => rfl
  | cons y ys ih => exact congrArg (y :: ·) ih

theorem failures_map_ok (ys : List β) : failures (ys.map .ok) = [] := by
  induction ys with
  | nil => rfl
  | cons y ys ih => exact ih

/-- The answers to elements are those of the elements that have one. -/
theorem successes_map (f : α → Except Fault β) (xs : List α) :
    successes (xs.map f) = xs.filterMap fun x => (f x).toOption := by
  unfold successes
  rw [List.filterMap_map]
  apply List.filterMap_congr
  intro x _
  cases h : f x with
  | error fault => simp [h, Except.toOption]
  | ok y => simp [h, Except.toOption]

/-- Stopping at faults, there are answers exactly if all results are these answers. -/
theorem mapM_eq_ok_iff_map {ys : List β} : xs.mapM f = .ok ys ↔ xs.map f = ys.map .ok := by
  rw [mapM_eq_ok_iff, ← List.forall₂_eq_eq_eq, List.forall₂_map_left_iff,
    List.forall₂_map_right_iff]

/-- The first fault is the first among the faults of all results. -/
theorem firstFault_iff_failures {fault : Fault} :
    FirstFault (fun x fault => f x = .error fault) xs fault ↔
      ∃ more, failures (xs.map f) = fault :: more := by
  induction xs with
  | nil => simp [not_firstFault_nil, failures]
  | cons x xs ih =>
    rw [firstFault_cons_iff, ih, List.map_cons]
    cases hx : f x with
    | error own => simp [failures]
    | ok y => simp [failures]

/-- Either there are answers for all, or there is a first fault. -/
theorem exists_forall₂_or_firstFault (f : α → Except Fault β) (xs : List α) :
    (∃ ys, List.Forall₂ (fun x y => f x = .ok y) xs ys) ∨
      ∃ fault, FirstFault (fun x fault => f x = .error fault) xs fault := by
  by_cases h : ∃ x ∈ xs, ∃ fault, f x = .error fault
  · exact .inr (exists_firstFault_iff.mpr h)
  · refine .inl (exists_forall₂ fun x hx => exists_eq_ok_iff.mpr fun fault hfault => ?_)
    exact h ⟨x, hx, fault, hfault⟩

/-- Blocks that have answers have, taken together, the results that these answers are. -/
theorem map_flatMap_eq_map_ok {γ : Type} {items : γ → List α} {blocks : List γ}
    {answers : List (List β)}
    (h : List.Forall₂ (fun block ys => (items block).mapM f = .ok ys) blocks answers) :
    (blocks.flatMap items).map f = answers.flatten.map .ok := by
  induction h with
  | nil => rfl
  | @cons block ys blocks answers hblock _ ih =>
    rw [List.flatMap_cons, List.map_append, mapM_eq_ok_iff_map.mp hblock, ih, List.flatten_cons,
      List.map_append]

end Results

/-! ## Enumerations of a document -/

variable (name : String) (root : Element) (workers : Nat)

/-- Without blocks of enumerations, a document has its messages and reports the same of them. -/
theorem ofElement_withoutTag_enums :
    ofElement name (root.withoutTag "enums") workers =
      { ofElement name root workers with
        enumerations := []
        faults := failures (messageVerdicts root) } := by
  have hmessages : messageElements (root.withoutTag "enums") = messageElements root := by
    unfold messageElements
    rw [Element.childrenNamed_withoutTag, if_neg (by decide)]
  have henumerations : enumerationElements (root.withoutTag "enums") = [] := by
    unfold enumerationElements
    rw [Element.childrenNamed_withoutTag, if_pos rfl]
    rfl
  have hverdicts : messageVerdicts (root.withoutTag "enums") = messageVerdicts root := by
    unfold messageVerdicts messageResults
    rw [hmessages]
  have hresults : enumerationResults (root.withoutTag "enums") = [] := by
    unfold enumerationResults
    rw [henumerations]
    rfl
  rw [ofElement_eq, ofElement_eq, hverdicts, hresults]
  simp [successes, failures]

/-- The faults of a document are those that it reports without its enumerations, and those of its
enumerations behind them. -/
theorem faults_ofElement_eq_append :
    (ofElement name root workers).faults =
      (ofElement name (root.withoutTag "enums") workers).faults ++
        failures (enumerationResults root) := by
  rw [ofElement_withoutTag_enums, ofElement_eq]

/-- The enumerations of a document are those that are well-formed. -/
theorem enumerations_ofElement :
    (ofElement name root workers).enumerations = successes (enumerationResults root) := by
  rw [ofElement_eq]

/-- **Stopping and going on agree.** If every block of enumerations can be compiled up to its end,
the enumerations of the document are those of its blocks, one block behind the other, and it reports
nothing that it would not report without these blocks. If not, the fault at which the first block
stops that does stop is the first one that the document reports of its enumerations. In both cases
the enumerations are just those of the elements that can be compiled by themselves, in document
order. Whether there are blocks of enumerations does not matter to the messages. -/
theorem ofElement_isolates (name : String) (root : Element) (workers : Nat) :
    let d := ofElement name root workers
    let bare := ofElement name (root.withoutTag "enums") workers
    let blocks := root.childrenNamed "enums"
    (∀ answers, List.Forall₂ (fun block xs => enumerationsOfElement block = .ok xs) blocks answers →
      d.enumerations = answers.flatten ∧ d.faults = bare.faults) ∧
    (∀ fault, FirstFault (fun block fault => enumerationsOfElement block = .error fault) blocks
        fault →
      ∃ more, d.faults = bare.faults ++ fault :: more) ∧
    ((∃ answers, List.Forall₂ (fun block xs => enumerationsOfElement block = .ok xs) blocks
        answers) ∨
      ∃ fault, FirstFault (fun block fault => enumerationsOfElement block = .error fault) blocks
        fault) ∧
    d.enumerations = (blocks.flatMap (·.childrenNamed "enum")).filterMap
      (fun e => (Enumeration.ofElement e).toOption) ∧
    bare.messages = d.messages ∧ bare.table = d.table ∧ bare.enumerations = [] := by
  intro d bare blocks
  have hfaults : d.faults = bare.faults ++ failures (enumerationResults root) :=
    faults_ofElement_eq_append name root workers
  have henumerations : d.enumerations = successes (enumerationResults root) :=
    enumerations_ofElement name root workers
  refine ⟨fun answers h => ?_, fun fault h => ?_, ?_, ?_, ?_⟩
  · have hresults : enumerationResults root = answers.flatten.map .ok := map_flatMap_eq_map_ok h
    rw [henumerations, hfaults, hresults, successes_map_ok, failures_map_ok, List.append_nil]
    exact ⟨rfl, rfl⟩
  · -- a block stops at the first fault of its own items, and blocks do not matter to what is first
    simp only [enumerationsOfElement, mapM_eq_error_iff] at h
    rw [← firstFault_flatMap_iff] at h
    obtain ⟨more, hmore⟩ := firstFault_iff_failures.mp h
    exact ⟨more, by rw [hfaults, ← hmore]; rfl⟩
  · exact exists_forall₂_or_firstFault enumerationsOfElement blocks
  · rw [henumerations]
    exact successes_map Enumeration.ofElement _
  · have hbare : bare = _ := ofElement_withoutTag_enums name root workers
    rw [hbare]
    exact ⟨rfl, rfl, rfl⟩

/-- A message without an id, and three blocks of enumerations. The second block has one that cannot
be compiled in front of one that can, the third has another that cannot. -/
def scatteredRoot : Element :=
  let broken : Element :=
    ⟨"enum", [("name", "B")], [⟨"entry", [("name", "Z"), ("value", "nope")], [], "", 4⟩], "", 4⟩
  ⟨"d", [],
    [⟨"enums", [], [⟨"enum", [("name", "A")], [], "", 2⟩], "", 2⟩,
      ⟨"messages", [], [⟨"message", [("name", "M")], [], "", 3⟩], "", 3⟩,
      ⟨"enums", [], [broken, ⟨"enum", [("name", "C")], [], "", 5⟩], "", 4⟩,
      ⟨"enums", [], [⟨"enum", [], [], "", 6⟩], "", 6⟩], "", 1⟩

/-- The same root as far as its first block of enumerations. -/
def soundRoot : Element := { scatteredRoot with children := scatteredRoot.children.take 2 }

/-- The broken enumerations are reported, and those around them are not lost. -/
theorem ofElement_isolates_sample :
    FirstFault (fun block fault => enumerationsOfElement block = .error fault)
        (scatteredRoot.childrenNamed "enums") (.invalidValue "B" "Z" "nope") ∧
      (∃ more, (ofElement "d" scatteredRoot 2).faults =
        .missingAttribute "message M" "id" :: .invalidValue "B" "Z" "nope" :: more) ∧
      (ofElement "d" scatteredRoot 2).enumerations = [⟨"A", none, []⟩, ⟨"C", none, []⟩] ∧
      List.Forall₂ (fun block xs => enumerationsOfElement block = .ok xs)
        (soundRoot.childrenNamed "enums") [[⟨"A", none, []⟩]] ∧
      (ofElement "d" soundRoot 2).enumerations = [⟨"A", none, []⟩] ∧
      (ofElement "d" soundRoot 2).faults = [.missingAttribute "message M" "id"] := by
  obtain ⟨-, hfault, -, henumerations, -⟩ := ofElement_isolates "d" scatteredRoot 2
  obtain ⟨hanswers, -⟩ := ofElement_isolates "d" soundRoot 2
  have hfirst : FirstFault (fun block fault => enumerationsOfElement block = .error fault)
      (scatteredRoot.childrenNamed "enums") (.invalidValue "B" "Z" "nope") := by
    refine ⟨[_], _, [_], rfl, ?_, rfl⟩
    intro block hblock fault
    rw [List.mem_singleton.mp hblock]
    exact nofun
  have hsound : List.Forall₂ (fun block xs => enumerationsOfElement block = .ok xs)
      (soundRoot.childrenNamed "enums") [[⟨"A", none, []⟩]] := .cons rfl .nil
  obtain ⟨hsame, hreported⟩ := hanswers _ hsound
  exact ⟨hfirst, hfault _ hfirst, henumerations, hsound, hsame, hreported⟩

end Dialect.Schema.Document

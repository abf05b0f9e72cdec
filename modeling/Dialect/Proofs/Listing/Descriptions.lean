import Dialect.Listing.Enumeration
import Dialect.Listing.Message
import Dialect.Proofs.Schema.Descriptions
import Dialect.Proofs.Text.Lines
import Dialect.Proofs.Text.Words

/-!
# Descriptions in listings

A listing with descriptions is the listing without them and some remarks, each on one line
(`remarked_message`, `remarked_enumerations`): line feeds may come from names, but not from
descriptions, which are on one line from the moment a schema is compiled.
-/

namespace Dialect.Listing

open Dialect.Payload (ByteOrder elementSteps fieldSteps lengths plan stepsFrom)
open Dialect.Schema (Document Entry Enumeration Field Message)
open Dialect.Text (EndsLine HasWords IsOneLine Remarked endsLine_concat endsLine_nil lines oneLine
  padRight remarked_line remarked_row words)

/-! ## What a listing says of descriptions -/

/-- What stands behind the row of a field. -/
def fieldRemark (f : Field) : String :=
  if f.description = "" then "" else "  # " ++ f.description

/-- What the listing of a message says of descriptions, from top to bottom. -/
def messageRemarks (m : Message) : List String :=
  m.description.toList.map ("description: " ++ ·) ++ m.fields.map fieldRemark

/-- What the listing of an enumeration says of descriptions, from top to bottom. -/
def enumerationRemarks (x : Enumeration) : List String :=
  x.description.toList.map ("  # " ++ ·) ++ x.entries.map fun e => remarkText e.description

/-- A listing gives descriptions: all of them are on one line, so that there are no line breaks in
them, each stands on one line of the listing, and but for the remarks that give them the lines are
those of the listing without descriptions. -/
structure Gives (listing bare : String) (descriptions remarks : List String) : Prop where
  oneLine : ∀ t ∈ descriptions, IsOneLine t.toList ∧ '\r' ∉ t.toList ∧ '\n' ∉ t.toList
  onLine : ∀ t ∈ descriptions, ∃ line ∈ lines listing.toList, t.toList <:+ line
  remarked : Remarked remarks (lines bare.toList) (lines listing.toList)

/-! ## Rows and remarks -/

/-- A text with a line feed at its end ends where a line does. -/
theorem endsLine_newline (s : String) : EndsLine (s ++ "\n").toList := by
  rw [String.toList_append]
  exact endsLine_concat s.toList

/-- Texts that end where lines end do so together. -/
theorem endsLine_append {s t : String} (h : EndsLine s.toList) (h' : EndsLine t.toList) :
    EndsLine (s ++ t).toList := by
  rw [String.toList_append]
  exact h.append h'

/-- A text made of whole lines ends where a line does. -/
theorem endsLine_join {texts : List String} (h : ∀ t ∈ texts, EndsLine t.toList) :
    EndsLine (String.join texts).toList := by
  induction texts with
  | nil => exact endsLine_nil
  | cons t texts ih =>
    obtain ⟨ht, hrest⟩ := List.forall_mem_cons.mp h
    rw [String.join_cons]
    exact endsLine_append ht (ih hrest)

/-- A remark has no line feed if neither its mark nor its text has one. -/
theorem newline_notMem_append {mark t : String} (hmark : '\n' ∉ mark.toList)
    (ht : '\n' ∉ t.toList) : '\n' ∉ (mark ++ t).toList := by
  rw [String.toList_append, List.mem_append]
  exact not_or.mpr ⟨hmark, ht⟩

/-- A row with a remark behind it. -/
theorem remarked_of_row {row remark : String} (h : '\n' ∉ remark.toList) :
    Remarked [remark] (lines (row ++ "" ++ "\n").toList)
      (lines (row ++ remark ++ "\n").toList) := by
  rw [String.append_empty, String.toList_append, String.toList_append, String.toList_append]
  exact remarked_row row.toList h

/-- The line, or none, that a description has to itself. -/
def ownLine (mark : String) (description : Option String) : String :=
  description.elim "" fun d => mark ++ d ++ "\n"

/-- A line of its own ends where a line ends, and so does none. -/
theorem endsLine_ownLine (mark : String) (description : Option String) :
    EndsLine (ownLine mark description).toList := by
  cases description with
  | none => exact endsLine_nil
  | some d => exact endsLine_newline (mark ++ d)

/-- A description on a line of its own is one remark. -/
theorem remarked_ownLine {mark : String} {description : Option String}
    (hmark : '\n' ∉ mark.toList) (h : ∀ d ∈ description, '\n' ∉ d.toList) :
    Remarked (description.toList.map (mark ++ ·)) (lines (ownLine mark none).toList)
      (lines (ownLine mark description).toList) := by
  cases description with
  | none => exact .nil
  | some d =>
    show Remarked [mark ++ d] [] (lines (mark ++ d ++ "\n").toList)
    rw [String.toList_append]
    exact remarked_line (newline_notMem_append hmark (h d rfl))

/-- Texts that end where a line ends are remarked one by one. -/
theorem remarked_join_map {α : Type} {items : List α} {full bare : α → String}
    {remarks : α → List String} (hfull : ∀ a, EndsLine (full a).toList)
    (hbare : ∀ a, EndsLine (bare a).toList)
    (h : ∀ a ∈ items, Remarked (remarks a) (lines (bare a).toList) (lines (full a).toList)) :
    Remarked (items.flatMap remarks) (lines (String.join (items.map bare)).toList)
      (lines (String.join (items.map full)).toList) := by
  induction items with
  | nil => exact .nil
  | cons a items ih =>
    obtain ⟨ha, hrest⟩ := List.forall_mem_cons.mp h
    rw [List.map_cons, List.map_cons, String.join_cons, String.join_cons, List.flatMap_cons]
    exact ha.lines_append (hbare a) (hfull a) (ih hrest)

/-! ## The listing of a message -/

variable {m : Message} {f : Field} {fields : List Field}

/-- The line of the message itself. -/
def messageHead (m : Message) : String :=
  s!"message {m.name} id={m.id} payload_len={m.payloadLength} crc_extra={m.code}\n"

/-- The steps of the message. -/
def messageSteps (order : ByteOrder) (m : Message) : String :=
  s!"\npack ({orderText order}):\n" ++ String.join ((plan m).map packLine) ++
  "\nunpack:\n" ++ String.join ((plan m).map unpackLine) ++
  "\nverify:\n" ++ String.join ((lengths m).map fun p => lengthLine p.1 p.2)

/-- The row of a field, without what stands behind it. -/
def fieldRow (offset : Nat) (f : Field) : String :=
  s!"{offsetText offset}{padRight 28 (typeText f)} {padRight 20 f.schemaName} class={f.rank}"

/-- The description of a message has a line of its own. -/
theorem descriptionLine_eq (description : Option String) :
    descriptionLine description = ownLine "description: " description := by
  cases description with
  | none => rfl
  | some d => rfl

/-- The listing of a message in four pieces, of which the head and the steps know no descriptions.
-/
theorem message_eq (order : ByteOrder) (m : Message) :
    message order m = messageHead m ++ (ownLine "description: " m.description ++
      ("\nfields:" ++ "\n" ++ (String.join (fieldLines 0 m.fields) ++ messageSteps order m))) := by
  unfold message messageHead messageSteps
  rw [descriptionLine_eq]
  simp only [String.append_assoc]
  rfl

/-- The line of a field is its row with the remark behind it. -/
theorem fieldLine_eq (offset : Nat) (f : Field) :
    fieldLine offset f = fieldRow offset f ++ fieldRemark f ++ "\n" :=
  fieldLine_text offset f

/-- The head of a listing says nothing of descriptions: neither length nor code depends on them. -/
theorem messageHead_undescribed (m : Message) : messageHead m.undescribed = messageHead m := by
  unfold messageHead
  rw [m.payloadLength_undescribed, m.code_undescribed]
  rfl

/-- The steps of an array do not depend on what describes it. -/
theorem elementSteps_undescribed (f : Field) (index offset count : Nat) :
    elementSteps f.undescribed index offset count = elementSteps f index offset count := by
  induction count generalizing index offset with
  | zero => rfl
  | succ count ih => exact congrArg (List.cons _) (ih _ _)

/-- The steps of a field do not depend on what describes it. -/
theorem fieldSteps_undescribed (f : Field) (offset : Nat) :
    fieldSteps f.undescribed offset = fieldSteps f offset := by
  unfold fieldSteps
  rw [elementSteps_undescribed]
  rfl

/-- The steps of a message do not depend on descriptions. -/
theorem stepsFrom_undescribed (offset : Nat) (fields : List Field) :
    stepsFrom offset (fields.map Field.undescribed) = stepsFrom offset fields := by
  induction fields generalizing offset with
  | nil => rfl
  | cons f fields ih =>
    rw [List.map_cons, stepsFrom, stepsFrom, fieldSteps_undescribed]
    exact congrArg (fieldSteps f offset ++ ·) (ih _)

/-- The steps in a listing say nothing of descriptions. -/
theorem messageSteps_undescribed (order : ByteOrder) (m : Message) :
    messageSteps order m.undescribed = messageSteps order m := by
  have hplan : plan m.undescribed = plan m := stepsFrom_undescribed 0 m.fields
  have hlengths : lengths m.undescribed = lengths m := List.map_map
  unfold messageSteps
  rw [hplan, hlengths]

/-- A description without line feeds makes a remark without any. -/
theorem newline_notMem_fieldRemark (h : '\n' ∉ f.description.toList) :
    '\n' ∉ (fieldRemark f).toList := by
  unfold fieldRemark
  split
  · decide
  · exact newline_notMem_append (by decide) h

/-- The line of a field is its line without description, and the remark. -/
theorem remarked_fieldLine (offset : Nat) (h : '\n' ∉ f.description.toList) :
    Remarked [fieldRemark f] (lines (fieldLine offset f.undescribed).toList)
      (lines (fieldLine offset f).toList) := by
  rw [fieldLine_eq, fieldLine_eq]
  exact remarked_of_row (newline_notMem_fieldRemark h)

/-- The lines of fields end where lines end, be there line feeds inside them or not. -/
theorem endsLine_fieldLines (offset : Nat) (fields : List Field) :
    ∀ line ∈ fieldLines offset fields, EndsLine line.toList := by
  induction fields generalizing offset with
  | nil => exact nofun
  | cons f fields ih =>
    refine List.forall_mem_cons.mpr ⟨?_, ih _⟩
    rw [fieldLine_eq]
    exact endsLine_newline _

/-- The lines of fields are those without descriptions, and one remark for each. -/
theorem remarked_fieldLines (h : ∀ f ∈ fields, '\n' ∉ f.description.toList) (offset : Nat) :
    Remarked (fields.map fieldRemark)
      (lines (String.join (fieldLines offset (fields.map Field.undescribed))).toList)
      (lines (String.join (fieldLines offset fields)).toList) := by
  induction fields generalizing offset with
  | nil => exact .nil
  | cons f fields ih =>
    obtain ⟨hf, hrest⟩ := List.forall_mem_cons.mp h
    have hends := endsLine_fieldLines offset (f :: fields) _ List.mem_cons_self
    have hends' := endsLine_fieldLines offset (f.undescribed :: fields) _ List.mem_cons_self
    rw [List.map_cons, List.map_cons, fieldLines, fieldLines, String.join_cons, String.join_cons]
    exact (remarked_fieldLine offset hf).lines_append hends' hends (ih hrest _)

/-- The listing of a message is the one without its descriptions and its remarks. -/
theorem remarked_message (order : ByteOrder) (h : ∀ t ∈ m.descriptions, '\n' ∉ t.toList) :
    Remarked (messageRemarks m) (lines (message order m.undescribed).toList)
      (lines (message order m).toList) := by
  obtain ⟨hown, hfields⟩ := List.forall_mem_append.mp h
  simp only [Option.mem_toList] at hown
  rw [List.forall_mem_map] at hfields
  have hends := endsLine_join (endsLine_fieldLines 0 m.fields)
  have hends' := endsLine_join (endsLine_fieldLines 0 (m.fields.map Field.undescribed))
  have hhead : EndsLine (messageHead m).toList := endsLine_newline _
  have htitle : EndsLine ("\nfields:" ++ "\n").toList := endsLine_newline _
  rw [message_eq, message_eq, messageHead_undescribed, messageSteps_undescribed]
  -- from the bottom up, each piece of the listing in front of what is below it
  have hrows := (remarked_fieldLines hfields 0).lines_append hends' hends
    (.refl (lines (messageSteps order m).toList))
  have hbelow := (Remarked.refl _).lines_append htitle htitle hrows
  have hall := (remarked_ownLine (by decide) hown).lines_append (endsLine_ownLine _ _)
    (endsLine_ownLine "description: " _) hbelow
  have hlisting := (Remarked.refl _).lines_append hhead hhead hall
  rw [List.append_nil] at hlisting
  exact hlisting

/-! ## The listing of enumerations -/

variable {x : Enumeration} {all : List Enumeration}

/-- The row of an entry, without what stands behind it. -/
def entryRow (width : Nat) (e : Entry) : String := s!"  {padRight width e.name} = {e.value}"

/-- The line of an entry is its row with the remark behind it. -/
theorem entryLine_eq (width : Nat) (e : Entry) :
    entryLine width e = entryRow width e ++ remarkText e.description ++ "\n" := rfl

/-- Descriptions have no part in how wide the column of names is. -/
theorem longest_undescribed (entries : List Entry) :
    longest (entries.map Entry.undescribed) = longest entries := by
  induction entries with
  | nil => rfl
  | cons e entries ih => rw [List.map_cons, longest, longest, ih]; rfl

/-- The listing of an enumeration in pieces, its description on a line of its own. -/
theorem enumeration_eq (x : Enumeration) :
    enumeration x = "\nenum " ++ x.name ++ "\n" ++ (ownLine "  # " x.description ++
      String.join (x.entries.map (entryLine (longest x.entries)))) := by
  unfold enumeration
  cases x.description with
  | none =>
    show _ = "\nenum " ++ x.name ++ "\n" ++ ("" ++ _)
    rw [String.empty_append]
    rfl
  | some d =>
    have hmark : "\n  # " = "\n" ++ "  # " := by decide
    show "\nenum " ++ x.name ++ "\n  # " ++ d ++ "\n" ++ _ =
      "\nenum " ++ x.name ++ "\n" ++ ("  # " ++ d ++ "\n" ++ _)
    rw [hmark]
    simp only [String.append_assoc]

/-- The same listing with no descriptions in it. -/
theorem enumeration_undescribed (x : Enumeration) :
    enumeration x.undescribed = "\nenum " ++ x.name ++ "\n" ++ (ownLine "  # " none ++
      String.join (x.entries.map fun e => entryLine (longest x.entries) e.undescribed)) := by
  have hwidth : longest x.undescribed.entries = longest x.entries := longest_undescribed x.entries
  have hentries : x.undescribed.entries = x.entries.map Entry.undescribed := rfl
  rw [enumeration_eq, hwidth, hentries, List.map_map]
  rfl

/-- A description without line feeds makes a remark without any. -/
theorem newline_notMem_remarkText {description : Option String}
    (h : ∀ d ∈ description, '\n' ∉ d.toList) : '\n' ∉ (remarkText description).toList := by
  cases description with
  | none => decide
  | some d =>
    have hmark : '\n' ∉ "  # ".toList := by decide
    exact newline_notMem_append hmark (h d rfl)

/-- The line of an entry is its line without description, and the remark. -/
theorem remarked_entryLine (width : Nat) {e : Entry} (h : ∀ d ∈ e.description, '\n' ∉ d.toList) :
    Remarked [remarkText e.description] (lines (entryLine width e.undescribed).toList)
      (lines (entryLine width e).toList) := by
  rw [entryLine_eq, entryLine_eq]
  exact remarked_of_row (newline_notMem_remarkText h)

/-- The line of an entry ends where a line ends, whatever is in its name. -/
theorem endsLine_entryLine (width : Nat) (e : Entry) : EndsLine (entryLine width e).toList :=
  endsLine_newline _

/-- The lines of all entries together end where a line ends. -/
theorem endsLine_entries (width : Nat) (entries : List Entry) :
    EndsLine (String.join (entries.map (entryLine width))).toList := by
  apply endsLine_join
  rw [List.forall_mem_map]
  intro e _
  exact endsLine_entryLine width e

/-- The listing of an enumeration ends where a line ends. -/
theorem endsLine_enumeration (x : Enumeration) : EndsLine (enumeration x).toList := by
  rw [enumeration_eq]
  exact endsLine_append (endsLine_newline _)
    (endsLine_append (endsLine_ownLine _ _) (endsLine_entries _ _))

/-- The listing of one enumeration is the one without its descriptions and its remarks. -/
theorem remarked_enumeration (h : ∀ t ∈ x.descriptions, '\n' ∉ t.toList) :
    Remarked (enumerationRemarks x) (lines (enumeration x.undescribed).toList)
      (lines (enumeration x).toList) := by
  obtain ⟨hown, hentries⟩ := List.forall_mem_append.mp h
  simp only [Option.mem_toList] at hown
  have hentry : ∀ e ∈ x.entries, Remarked [remarkText e.description]
      (lines (entryLine (longest x.entries) e.undescribed).toList)
      (lines (entryLine (longest x.entries) e).toList) := by
    intro e he
    apply remarked_entryLine
    intro d hd
    exact hentries d (List.mem_filterMap.mpr ⟨e, he, hd⟩)
  -- from the bottom up, each piece of the listing in front of what is below it
  have hrows := remarked_join_map (endsLine_entryLine (longest x.entries))
    (fun e => endsLine_entryLine (longest x.entries) e.undescribed) hentry
  have hbelow := (remarked_ownLine (by decide) hown).lines_append (endsLine_ownLine _ _)
    (endsLine_ownLine "  # " _) hrows
  have hhead : EndsLine ("\nenum " ++ x.name ++ "\n").toList := endsLine_newline _
  have hlisting := (Remarked.refl _).lines_append hhead hhead hbelow
  rw [← List.map_eq_flatMap] at hlisting
  rw [enumeration_undescribed, enumeration_eq]
  exact hlisting

/-- The listing of enumerations is the one without their descriptions and their remarks. -/
theorem remarked_enumerations (document : String)
    (h : ∀ t ∈ all.flatMap Enumeration.descriptions, '\n' ∉ t.toList) :
    Remarked (all.flatMap enumerationRemarks)
      (lines (enumerations document (all.map Enumeration.undescribed)).toList)
      (lines (enumerations document all).toList) := by
  have hone : ∀ x ∈ all, Remarked (enumerationRemarks x) (lines (enumeration x.undescribed).toList)
      (lines (enumeration x).toList) := by
    intro x hx
    apply remarked_enumeration
    intro t ht
    exact h t (List.mem_flatMap_of_mem hx ht)
  have hall := remarked_join_map endsLine_enumeration
    (fun x => endsLine_enumeration x.undescribed) hone
  have htitle : EndsLine s!"enums of {document}\n".toList := endsLine_newline _
  unfold enumerations
  rw [List.map_map]
  exact (Remarked.refl _).lines_append htitle htitle hall

/-! ## Descriptions -/

/-- Texts on one line that the remarks of a listing end with are given by it. -/
theorem gives_of_remarked {listing bare : String} {descriptions remarks : List String}
    (hline : ∀ t ∈ descriptions, ∃ s, t = oneLine s)
    (hends : ∀ t ∈ descriptions, ∃ remark ∈ remarks, t.toList <:+ remark.toList)
    (h : (∀ t ∈ descriptions, '\n' ∉ t.toList) →
      Remarked remarks (lines bare.toList) (lines listing.toList)) :
    Gives listing bare descriptions remarks := by
  have hone : ∀ t ∈ descriptions, IsOneLine t.toList ∧ '\r' ∉ t.toList ∧ '\n' ∉ t.toList := by
    intro t ht
    obtain ⟨s, rfl⟩ := hline t ht
    have hs := Text.isOneLine_oneLine s
    exact ⟨hs, hs.notMem rfl (by decide), hs.notMem rfl (by decide)⟩
  have hremarked := h fun t ht => (hone t ht).2.2
  refine ⟨hone, fun t ht => ?_, hremarked⟩
  obtain ⟨remark, hremark, hsuffix⟩ := hends t ht
  obtain ⟨line, hmem, hlast⟩ := hremarked.exists_mem hremark
  exact ⟨line, hmem, hsuffix.trans hlast⟩

/-- A remark ends with what it is about. -/
theorem suffix_append (mark t : String) : t.toList <:+ (mark ++ t).toList := by
  rw [String.toList_append]
  exact List.suffix_append _ _

/-- Every description of a message is the end of one of its remarks. -/
theorem exists_messageRemark {t : String} (ht : t ∈ m.descriptions) :
    ∃ remark ∈ messageRemarks m, t.toList <:+ remark.toList := by
  rcases List.mem_append.mp ht with ht | ht
  · exact ⟨_, List.mem_append_left _ (List.mem_map_of_mem ht), suffix_append "description: " t⟩
  · obtain ⟨f, hf, rfl⟩ := List.mem_map.mp ht
    refine ⟨_, List.mem_append_right _ (List.mem_map_of_mem hf), ?_⟩
    unfold fieldRemark
    split
    · next hempty => simp [hempty]
    · exact suffix_append "  # " f.description

/-- Every description of an enumeration is the end of one of its remarks. -/
theorem exists_enumerationRemark {t : String} (ht : t ∈ x.descriptions) :
    ∃ remark ∈ enumerationRemarks x, t.toList <:+ remark.toList := by
  rcases List.mem_append.mp ht with ht | ht
  · exact ⟨_, List.mem_append_left _ (List.mem_map_of_mem ht), suffix_append "  # " t⟩
  · obtain ⟨e, he, hdescription⟩ := List.mem_filterMap.mp ht
    refine ⟨_, List.mem_append_right _ (List.mem_map_of_mem he), ?_⟩
    rw [hdescription]
    exact suffix_append "  # " t

/-- The listing of a compiled message gives its descriptions. -/
theorem gives_message (order : ByteOrder) (h : ∃ e, Message.ofElement e = .ok m) :
    Gives (message order m) (message order m.undescribed) m.descriptions (messageRemarks m) := by
  obtain ⟨e, he⟩ := h
  refine gives_of_remarked ?_ ?_ (remarked_message order)
  · intro t ht
    exact Message.exists_of_mem_descriptions he ht
  · intro t ht
    exact exists_messageRemark ht

/-- The listing of compiled enumerations gives their descriptions. -/
theorem gives_enumerations (document : String)
    (h : ∀ x ∈ all, ∃ e, Enumeration.ofElement e = .ok x) :
    Gives (enumerations document all) (enumerations document (all.map Enumeration.undescribed))
      (all.flatMap Enumeration.descriptions) (all.flatMap enumerationRemarks) := by
  refine gives_of_remarked ?_ ?_ (remarked_enumerations document)
  · intro t ht
    obtain ⟨x, hx, ht⟩ := List.mem_flatMap.mp ht
    obtain ⟨e, he⟩ := h x hx
    exact Enumeration.exists_of_mem_descriptions he ht
  · intro t ht
    obtain ⟨x, hx, ht⟩ := List.mem_flatMap.mp ht
    obtain ⟨remark, hremark, hsuffix⟩ := exists_enumerationRemark ht
    exact ⟨remark, List.mem_flatMap_of_mem hx hremark, hsuffix⟩

/-- **Descriptions stay on their lines.** Putting a text on one line leaves no blanks at its ends
and none inside but single spaces between its words, and keeps these words, in order. So doing it
again changes nothing, and two texts become the same exactly if they have the same words. What
describes a message, a field, an enumeration or an entry is put on one line, whatever element it is
compiled from. So there are no line breaks in it, it stands on one line of the listing, and all the
listing owes to descriptions is remarks on its lines. The messages and the enumerations of every
document that can be compiled are of this kind. -/
theorem descriptions_on_one_line :
    (∀ (s : String) (ws : List (List Char)), words s.toList = ws ↔ HasWords s.toList ws) ∧
    (∀ s, IsOneLine (oneLine s).toList ∧ words (oneLine s).toList = words s.toList ∧
      oneLine (oneLine s) = oneLine s) ∧
    (∀ s s', oneLine s = oneLine s' ↔ words s.toList = words s'.toList) ∧
    (∀ order m, (∃ e, Message.ofElement e = .ok m) →
      Gives (message order m) (message order m.undescribed) m.descriptions (messageRemarks m)) ∧
    (∀ document all, (∀ x ∈ all, ∃ e, Enumeration.ofElement e = .ok x) →
      Gives (enumerations document all) (enumerations document (all.map Enumeration.undescribed))
        (all.flatMap Enumeration.descriptions) (all.flatMap enumerationRemarks)) ∧
    ∀ name source workers d, Document.ofSource name source workers = .ok d →
      (∀ order, ∀ m ∈ d.messages,
        Gives (message order m) (message order m.undescribed) m.descriptions (messageRemarks m)) ∧
      Gives (enumerations d.name d.enumerations)
        (enumerations d.name (d.enumerations.map Enumeration.undescribed))
        (d.enumerations.flatMap Enumeration.descriptions)
        (d.enumerations.flatMap enumerationRemarks) := by
  refine ⟨fun s ws => Text.words_eq_iff, fun s => ?_, fun s s' => Text.oneLine_eq_oneLine_iff,
    fun order m => gives_message order, fun document all => gives_enumerations document, ?_⟩
  · have hs := Text.isOneLine_oneLine s
    exact ⟨hs, Text.words_oneLine s, Text.oneLine_eq_self_iff.mpr hs⟩
  · intro name source workers d h
    constructor
    · intro order m hm
      exact gives_message order (Document.exists_of_mem_messages h hm)
    · exact gives_enumerations d.name fun x hx => Document.exists_of_mem_enumerations h hx

/-- A document whose descriptions are written with blanks of many kinds, and a field that has a line
feed in its name. -/
def describedSource : String :=
  "<d><enums><enum name='E'><description>\tan\u0085enum </description></enum></enums>" ++
    "<messages><message id='0' name='A'><field type='char' name='b&#10;c'>of\r\n\u3000it " ++
    "</field></message></messages></d>"

def describedMessage : Message := ⟨0, "A", none, [⟨"b\nc", "b\nc", .plain .char, 1, "of it"⟩]⟩

def describedEnumeration : Enumeration := ⟨"E", some "an enum", []⟩

/-- Line breaks of three kinds in descriptions, none of which reaches a listing. -/
theorem descriptions_on_one_line_sample :
    ∃ d, Document.ofSource "doc" describedSource 1 = .ok d ∧
      d.messages = [describedMessage] ∧ d.enumerations = [describedEnumeration] ∧
      (∃ line ∈ lines (message .little describedMessage).toList, "of it".toList <:+ line) ∧
      (∃ line ∈ lines (enumerations d.name [describedEnumeration]).toList,
        "an enum".toList <:+ line) ∧
      oneLine "\u00a0two\r\n\u2028lines " = oneLine "two lines" := by
  have hread : (Document.ofSource "doc" describedSource 1).map
      (fun d => (d.messages, d.enumerations)) =
        .ok ([describedMessage], [describedEnumeration]) := by
    decide +kernel
  obtain ⟨d, hd, hparts⟩ := map_eq_ok_iff.mp hread
  obtain ⟨hmessages, henumerations⟩ := Prod.mk.inj hparts
  obtain ⟨-, -, hwords, -, -, hdocument⟩ := descriptions_on_one_line
  obtain ⟨hmessage, hlisting⟩ := hdocument _ _ _ d hd
  rw [hmessages] at hmessage
  rw [henumerations] at hlisting
  refine ⟨d, hd, hmessages, henumerations, ?_, ?_, (hwords _ _).mpr (by decide)⟩
  · exact (hmessage .little _ List.mem_cons_self).onLine "of it" (by decide)
  · exact hlisting.onLine "an enum" (by decide)

end Dialect.Listing

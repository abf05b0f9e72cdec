import Dialect.Proofs.Run.Listings

/-!
# What a run leaves behind

A run that succeeds leaves each listing in its file, unless two of them are put in one place; and
it is known from the names when that happens (`generate_artifacts`). It does happen: nothing keeps
apart the documents of two files whose names differ in the ending only (`generate_overwrites`).
-/

namespace Dialect.Run

open Dialect.Files (Action Path.exists_parts_eq Path.getLast?_join Path.join Path.parts Tree
  resolve)

variable {o : Options} {t after : Tree} {report : Report} {sources : List Source}

/-- A file that is written in a directory can be read there, if its place is not taken twice. -/
theorem read?_of_writeText {actions : List Action} {directory file text : String}
    (hperform : t.performAll actions = (after, none))
    (hmem : writeText directory file text ∈ actions) (hfile : file.toList.getLast? = some 't')
    (hcount : (actions.filterMap Action.place?).count
      (resolve [] (Path.parts (Path.join directory file))) ≤ 1) :
    after.read? (Path.join directory file) = some (Schema.textBytes text) := by
  obtain ⟨name, hname, hparts⟩ :=
    Path.exists_parts_eq (Path.getLast?_join hfile) (by decide) (by decide)
  exact Tree.read?_of_count hperform hcount hmem hparts hname.ne_dots

/-- What is listed of the sources that a run has read has proper names, but for slashes in those of
its messages. -/
theorem proper_of_mem_listed (hwell : t.WellFormed)
    (hsources : readSources t o.schemaDirectory = .ok sources)
    (hslash : ∀ d ∈ listed {} sources, ∀ k ∈ d.kept, '/' ∉ (listingFile k.2).toList) :
    ∀ d ∈ listed {} sources, d.Proper := by
  intro d hd
  obtain ⟨⟨s, hs, hname⟩, hfiles, hnodup⟩ := kept_of_mem_listed hd
  obtain ⟨hne, hnotMem⟩ := name_of_readSources hwell hsources hs
  rw [← hname] at hne hnotMem
  refine ⟨hne, hnotMem, hfiles, hnodup, fun k hk => ?_⟩
  rw [hfiles k hk]
  exact hslash d hd k hk

/-- **No listing is lost but to another.** A run that succeeds reports what it lists of each
document that can be read. When it is over, the file of the enumerations of each such document and
that of each of its messages hold their listings, but where another file is put at the same place.
And the names tell when that happens: if no message has a slash in its file, and no document is to
be listed above the root, then no two files are put at one place exactly if no two documents have
one name and no message has the file of the enumerations of its document. -/
theorem generate_artifacts (hwell : t.WellFormed)
    (hsources : readSources t o.schemaDirectory = .ok sources)
    (hrun : generate o t = (after, .ok report)) :
    (report.documents.filter (·.parseFault.isNone)).map
        (fun r => (r.name, r.messages, r.enumerations)) =
      (listed {} sources).map
        (fun d => (d.name, d.kept.map (·.2.name), d.enumerations.length)) ∧
    (∀ d ∈ listed {} sources,
      ((places o sources).count (resolve [] (Path.parts (d.path o (enumerationsFile d.name)))) ≤ 1 →
        after.read? (d.path o (enumerationsFile d.name)) =
          some (Schema.textBytes (Listing.enumerations d.name d.enumerations))) ∧
      ∀ k ∈ d.kept,
        (places o sources).count (resolve [] (Path.parts (d.path o (listingFile k.2)))) ≤ 1 →
          after.read? (d.path o (listingFile k.2)) =
            some (Schema.textBytes (Listing.message o.order k.2))) ∧
    ((∀ d ∈ listed {} sources, ∀ k ∈ d.kept, '/' ∉ (listingFile k.2).toList) →
      (resolve [] (Path.parts o.outputDirectory) = [] →
        ∀ d ∈ listed {} sources, d.name ≠ "..") →
      ((places o sources).Nodup ↔
        ((listed {} sources).map Listed.name).Nodup ∧
          ∀ d ∈ listed {} sources, ∀ k ∈ d.kept, listingFile k.2 ≠ enumerationsFile d.name)) := by
  obtain ⟨read, hread, hreport, hperform⟩ := generate_eq_ok_iff.mp hrun
  obtain rfl : read = sources := Except.ok.inj (hread.symm.trans hsources)
  refine ⟨?_, fun d hd => ?_, fun hslash hup => ?_⟩
  · rw [← hreport, outcome_eq]
    exact reports_progress o {} read
  -- the run writes each file that is listed, and the last write to a place is what it holds
  · have hactions : ∀ action ∈ documentActions o d.name d.kept d.enumerations,
        action ∈ (outcome o read).2 := by
      intro action haction
      rw [outcome_eq]
      refine List.mem_append_left _ ?_
      rw [actions_progress]
      exact List.mem_flatMap.mpr ⟨d, hd, haction⟩
    constructor
    · refine read?_of_writeText hperform (hactions _ ?_) (getLast?_enumerationsFile d.name)
      exact List.mem_append_right _ (List.mem_singleton_self _)
    · intro k hk
      refine read?_of_writeText hperform (hactions _ ?_) (getLast?_listingFile k.2)
      refine List.mem_append_left _ (List.mem_cons_of_mem _ (List.mem_map.mpr ⟨k, hk, ?_⟩))
      rw [(kept_of_mem_listed hd).2.1 k hk]
      rfl
  · exact nodup_places_iff (proper_of_mem_listed hwell hsources hslash) hup

/-- A message, and the two files that its document is listed in. -/
theorem generate_artifacts_sample :
    ∃ after report,
      generate plainOptions (schemaTree [("d.xml", listText [("0", "A")])]) = (after, .ok report) ∧
        report.documents.map (·.messages) = [["A"]] ∧
        after.read? "out/d/d.enums.txt" = some (Schema.textBytes (Listing.enumerations "d" [])) ∧
        after.read? "out/d/msg_a.txt" =
          some (Schema.textBytes (Listing.message .little ⟨0, "A", none, []⟩)) := by
  have hsources : readSources (schemaTree [("d.xml", listText [("0", "A")])])
      plainOptions.schemaDirectory = .ok [schemaSource "d.xml" (listText [("0", "A")])] := rfl
  have hlisted : listed {} [schemaSource "d.xml" (listText [("0", "A")])] =
      [⟨"d", [("msg_a.txt", ⟨0, "A", none, []⟩)], []⟩] := by
    decide +kernel
  have hreport : (generate plainOptions (schemaTree [("d.xml", listText [("0", "A")])])).2 =
      .ok ⟨[⟨"d", "schemas/d.xml", none, [], ["A"], 0⟩], ⟨[⟨0, "A", 138⟩]⟩⟩ := by
    decide +kernel
  obtain ⟨-, hheld, hplaces⟩ := generate_artifacts (wellFormed_schemaTree (by decide) (by decide))
    hsources (Prod.ext rfl hreport)
  rw [hlisted] at hheld hplaces
  have hnodup := (hplaces (by decide) (by decide)).mpr ⟨by decide, by decide⟩
  obtain ⟨henums, hmessages⟩ := hheld _ List.mem_cons_self
  have henums := henums (List.nodup_iff_count_le_one.mp hnodup _)
  have hmessage := hmessages _ List.mem_cons_self (List.nodup_iff_count_le_one.mp hnodup _)
  have henumsPath : Listed.path plainOptions ⟨"d", [("msg_a.txt", ⟨0, "A", none, []⟩)], []⟩
      (enumerationsFile "d") = "out/d/d.enums.txt" := by
    decide +kernel
  have hmessagePath : Listed.path plainOptions ⟨"d", [("msg_a.txt", ⟨0, "A", none, []⟩)], []⟩
      (listingFile ⟨0, "A", none, []⟩) = "out/d/msg_a.txt" := by
    decide +kernel
  rw [henumsPath] at henums
  rw [hmessagePath] at hmessage
  exact ⟨_, _, Prod.ext rfl hreport, rfl, henums, hmessage⟩

/-- Two documents whose files differ in the ending only are listed in one directory. The listing of
the first message is overwritten by that of the second, and both are reported as listed. -/
theorem generate_overwrites :
    let files := [("a.XML", listText [("1", "A")]), ("a.xml", listText [("2", "A")])]
    (generate plainOptions (schemaTree files)).2 =
        .ok ⟨[⟨"a", "schemas/a.XML", none, [], ["A"], 0⟩,
          ⟨"a", "schemas/a.xml", none, [], ["A"], 0⟩], ⟨[⟨1, "A", 138⟩, ⟨2, "A", 138⟩]⟩⟩ ∧
      (generate plainOptions (schemaTree files)).1.read? "out/a/msg_a.txt" =
        some (Schema.textBytes (Listing.message .little ⟨2, "A", none, []⟩)) ∧
      Listing.message .little ⟨1, "A", none, []⟩ ≠ Listing.message .little ⟨2, "A", none, []⟩ := by
  decide +kernel

end Dialect.Run

import SchemaRegex.Proofs.Unicode.Stretches

/-!
# Character data in a packed table

A table packed from character data and unpacked again says of every codepoint what the data say. The
data become entries, these one entry for every codepoint with letters in turn marked, these stretches
and runs, and the kinds of the runs are those of the entries (`exists_runs`). The sets of the table are
made from the runs.
-/

namespace SchemaRegex.Unicode

private theorem Assigns.le_lastCodepoint {ls : List DataLine}
    (inCodespace : ∀ l ∈ ls, l.codepoint ≤ lastCodepoint)
    {c : Nat} {category : String} (assigns : Assigns ls c category) : c ≤ lastCodepoint := by
  obtain ⟨l, member, own, _⟩ | ⟨f, l, pair, _, _, _, _, _, high⟩ := assigns
  · exact own ▸ inCodespace l member
  · have member := pair.subset (List.mem_cons_of_mem f List.mem_cons_self)
    exact Nat.le_trans high (inCodespace l member)

private theorem consecutive_markAlternations {es : List Entry} (consecutive : Consecutive es)
    (inCodespace : ∀ e ∈ es, e.codepoint ≤ lastCodepoint) (plain : ∀ e ∈ es, e.kind ≠ .alternating) :
    Consecutive (markAlternations es) ∧ ∀ e ∈ markAlternations es, e.codepoint ≤ lastCodepoint := by
  have codepoints := (unmark_markAlternations plain).1
  have length : (markAlternations es).length = es.length := by
    simpa using congrArg List.length codepoints
  constructor
  · rw [Consecutive, codepoints, length]
    exact consecutive
  · intro e member
    have place := List.mem_map_of_mem (f := Entry.codepoint) member
    rw [codepoints] at place
    obtain ⟨f, given, same⟩ := List.mem_map.mp place
    exact same ▸ inCodespace f given

/-- Character data is packed as runs that a table can hold, whose kinds are what the data say. -/
theorem CharacterData.exists_runs {data : List Char} {ls : List DataLine}
    (given : CharacterData data ls) :
    ∃ runs : List Run, encodeCategories data = .ok (runs.flatMap Run.write) ∧
      (∀ run ∈ runs, 0 < run.length ∧ run.length ≤ 0x1000000) ∧
      ∀ c category, (runs.flatMap Run.kinds)[c]? = some (.category category) ↔
        Assigns ls c category.name := by
  obtain ⟨es, read, ordered, stated⟩ := given.exists_entries
  obtain ⟨consecutive, inCodespace, plain⟩ := consecutive_fillGaps ordered
  obtain ⟨marked, markedInCodespace⟩ := consecutive_markAlternations consecutive inCodespace plain
  obtain ⟨runs, written, lengths, kinds⟩ := runs_of_stretches marked markedInCodespace
  refine ⟨runs, ?_, lengths, fun c category => ?_⟩
  · rw [encodeCategories, read, ← written]
    rfl
  · rw [kinds, (unmark_markAlternations plain).2, consecutive.getElem?_kindsOf, fillGaps_eq,
      mem_fillFrom, stated]

theorem GeneralCategory.group_eq_iff {category : GeneralCategory} {group : CategoryGroup} :
    category.group = group ↔ group.name.toList <+: category.name.toList := by
  cases category <;> cases group <;> decide

/-- The table says what the lines say: the name of a category has the codepoints to which the lines give
it, the name of a group those of the categories whose names start with it, and no name has a codepoint
without a category, or with one that is not in the table. -/
structure NamedSets.Tells (table : NamedSets) (ls : List DataLine) : Prop where
  category : ∀ category : GeneralCategory, ∃ set, table.get? category.name = some set ∧
    ∀ c, set.contains c = true ↔ Assigns ls c category.name
  group : ∀ group : CategoryGroup, ∃ set, table.get? group.name = some set ∧
    ∀ c, set.contains c = true ↔ ∃ (category : GeneralCategory) (part : CodepointSet),
      group.name.toList <+: category.name.toList ∧ table.get? category.name = some part ∧
        part.contains c = true
  nothing : ∀ c, ((∀ w, ¬ Assigns ls c w) ∨
      ∃ w, Assigns ls c w ∧ ∀ category : GeneralCategory, category.name ≠ w) →
    ∀ name set, table.get? name = some set → set.contains c = false

private theorem tells_tabulate {ls : List DataLine} (inCodespace : ∀ l ∈ ls, l.codepoint ≤ lastCodepoint)
    (ascending : ls.Pairwise (·.codepoint < ·.codepoint)) (paired : Paired ls) {runs : List Run}
    (positive : ∀ run ∈ runs, 0 < run.length)
    (stated : ∀ c category, (runs.flatMap Run.kinds)[c]? = some (.category category) ↔
      Assigns ls c category.name) : (tabulate (placeRuns 0 runs)).Tells ls := by
  have member (c : Nat) (category : GeneralCategory) :
      c ∈ categorySet (placeRuns 0 runs) category ↔ Assigns ls c category.name := by
    rw [mem_categorySet positive, stated]
    exact and_iff_right_of_imp (Assigns.le_lastCodepoint inCodespace)
  refine ⟨fun category => ?_, fun group => ?_, fun c without name set found => ?_⟩
  · refine ⟨_, get?_tabulate_category _ category, fun c => ?_⟩
    rw [CodepointSet.contains_iff_mem, member]
  · obtain ⟨set, found, parts⟩ := get?_tabulate_group (placeRuns 0 runs) group
    refine ⟨set, found, fun c => ?_⟩
    simp only [CodepointSet.contains_iff_mem, parts, GeneralCategory.group_eq_iff,
      get?_tabulate_category, Option.some.injEq, ↓existsAndEq, true_and]
  · refine Bool.eq_false_iff.mpr fun inside => ?_
    rw [CodepointSet.contains_iff_mem] at inside
    obtain ⟨category, listed⟩ := exists_category_of_tabulate found inside
    have assigned := (member c category).mp listed
    obtain absent | ⟨w, other, unlisted⟩ := without
    · exact absent category.name assigned
    · exact unlisted category (assigned.unique ascending paired other)

/-- Character data that is packed and unpacked again gives a table that says what the data say. -/
theorem category_data_round_trip {data : List Char} {ls : List DataLine}
    (given : CharacterData data ls) :
    ∃ packed table, encodeCategories data = .ok packed ∧ decodeCategories packed = .ok table ∧
      table.Tells ls := by
  obtain ⟨runs, packed, lengths, stated⟩ := given.exists_runs
  refine ⟨_, tabulate (placeRuns 0 runs), packed, ?_, ?_⟩
  · rw [decodeCategories, readRuns_write lengths]
    rfl
  · exact tells_tabulate given.inCodespace given.ascending given.paired
      (fun run member => (lengths run member).1) stated

def letterData : List Char :=
  "0041;A;Lu;0;L\n0042;B;Ll\n 0043 ;C;Lu\n0044;D;Ll\n0045;E;Lu\n0046;F;Lu\n\n".toList ++
    "AC00;<Hangul, First>;Lo;0\nD7A3;<Hangul, Last>;Lo;0\n".toList ++
    "d800;<High, First>;Cs\ndb7f;<High, Last>;Cs\n".toList

def letterLines : List DataLine :=
  [⟨0x41, "A", "Lu"⟩, ⟨0x42, "B", "Ll"⟩, ⟨0x43, "C", "Lu"⟩, ⟨0x44, "D", "Ll"⟩, ⟨0x45, "E", "Lu"⟩,
    ⟨0x46, "F", "Lu"⟩, ⟨0xAC00, "<Hangul, First>", "Lo"⟩,
    ⟨0xD7A3, "<Hangul, Last>", "Lo"⟩, ⟨0xD800, "<High, First>", "Cs"⟩,
    ⟨0xDB7F, "<High, Last>", "Cs"⟩]

private theorem letterData_written : List.Forall₂ DataLine.Written letterLines (dataLines letterData) := by
  have lines : dataLines letterData =
      ["0041;A;Lu;0;L".toList, "0042;B;Ll".toList, "0043 ;C;Lu".toList, "0044;D;Ll".toList,
        "0045;E;Lu".toList, "0046;F;Lu".toList, "AC00;<Hangul, First>;Lo;0".toList,
        "D7A3;<Hangul, Last>;Lo;0".toList, "d800;<High, First>;Cs".toList,
        "db7f;<High, Last>;Cs".toList] := by
    decide +kernel
  rw [lines]
  refine .cons (.of_digits "0041".toList ";0;L".toList ?_ ?_) <|
    .cons (.of_digits "0042".toList [] ?_ ?_) <|
    .cons (.of_digits "0043 ".toList [] ?_ ?_) <|
    .cons (.of_digits "0044".toList [] ?_ ?_) <|
    .cons (.of_digits "0045".toList [] ?_ ?_) <|
    .cons (.of_digits "0046".toList [] ?_ ?_) <|
    .cons (.of_digits "AC00".toList ";0".toList ?_ ?_) <|
    .cons (.of_digits "D7A3".toList ";0".toList ?_ ?_) <|
    .cons (.of_digits "d800".toList [] ?_ ?_) <|
    .cons (.of_digits "db7f".toList [] ?_ ?_) .nil
  all_goals decide +kernel

private theorem characterData_letters : CharacterData letterData letterLines := by
  refine ⟨letterData_written, ?_, ?_, ?_⟩
  all_goals decide

theorem letter_data_round_trip :
    CharacterData letterData letterLines ∧
      ∃ packed table, encodeCategories letterData = .ok packed ∧
        decodeCategories packed = .ok table ∧ table.Tells letterLines :=
  ⟨characterData_letters, category_data_round_trip characterData_letters⟩

end SchemaRegex.Unicode

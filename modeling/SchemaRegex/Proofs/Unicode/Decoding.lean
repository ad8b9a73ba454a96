import SchemaRegex.Proofs.Unicode.Partition

/-!
# What a packed table says

The texts that can be decoded are those of some records. Any other text is refused for the first thing
wrong with it. In the table that is made, a codepoint has the category of the record that covers it, and
under letters in turn the one whose turn it is (`decodes_exactly_records`).
-/

namespace SchemaRegex.Unicode

private theorem decodeCategories_recordText (records : List Record) :
    decodeCategories (recordText records) = .ok (tabulate (placeRuns 0 (records.map Record.run))) := by
  rw [decodeCategories, readRuns_records]
  rfl

private theorem FirstDefect.decodeCategories_eq {packed : List Char} {e : TableError}
    (defect : FirstDefect packed e) : decodeCategories packed = .error e := by
  rw [decodeCategories, defect.readRuns_eq]
  rfl

private theorem decodeCategories_ok_iff {packed : List Char} :
    (∃ table, decodeCategories packed = .ok table) ↔ ∃ records, packed = recordText records := by
  constructor
  · intro decoded
    obtain ⟨table, decoded⟩ := decoded
    obtain records | ⟨e, defect⟩ := records_or_defect packed
    · exact records
    · cases decoded.symm.trans defect.decodeCategories_eq
  · intro written
    obtain ⟨records, same⟩ := written
    exact ⟨_, same ▸ decodeCategories_recordText records⟩

private theorem decodeCategories_error_iff {packed : List Char} {e : TableError} :
    decodeCategories packed = .error e ↔ FirstDefect packed e := by
  refine ⟨fun failed => ?_, FirstDefect.decodeCategories_eq⟩
  obtain ⟨records, same⟩ | ⟨other, defect⟩ := records_or_defect packed
  · subst same
    cases failed.symm.trans (decodeCategories_recordText records)
  · cases failed.symm.trans defect.decodeCategories_eq
    exact defect

def Record.Gives (r : Record) (offset : Nat) (category : GeneralCategory) : Prop :=
  r.kind = .category category ∨ r.kind = .alternating ∧
    (category = .uppercaseLetter ∧ offset % 2 = 0 ∨ category = .lowercaseLetter ∧ offset % 2 = 1)

def covered (records : List Record) : Nat := (records.map fun r => r.length).sum

def Recorded (records : List Record) (c : Nat) (category : GeneralCategory) : Prop :=
  ∃ before r behind, records = before ++ r :: behind ∧ covered before ≤ c ∧
    c < covered before + r.length ∧ r.Gives (c - covered before) category

private theorem covered_cons (r : Record) (records : List Record) :
    covered (r :: records) = r.length + covered records := List.sum_cons

private theorem recorded_cons {r : Record} {records : List Record} {c : Nat} {category : GeneralCategory} :
    Recorded (r :: records) c category ↔
      if c < r.length then r.Gives c category else Recorded records (c - r.length) category := by
  constructor
  · intro given
    obtain ⟨before, own, behind, same, low, high, gives⟩ := given
    cases before with
    | nil =>
      cases same
      rw [if_pos (by simpa [covered] using high)]
      exact gives
    | cons first before =>
      cases same
      rw [covered_cons] at low high gives
      rw [if_neg (by omega)]
      rw [← Nat.sub_sub] at gives
      exact ⟨before, own, behind, rfl, by omega, by omega, gives⟩
  · intro given
    split at given
    · rename_i inside
      exact ⟨[], r, records, rfl, Nat.zero_le c, by simpa [covered] using inside, given⟩
    · rename_i outside
      obtain ⟨before, own, behind, same, low, high, gives⟩ := given
      refine ⟨r :: before, own, behind, by rw [same]; rfl, ?_, ?_, ?_⟩
      · rw [covered_cons]
        omega
      · rw [covered_cons]
        omega
      · rw [covered_cons, ← Nat.sub_sub]
        exact gives

private theorem Record.getElem?_kinds {r : Record} {offset : Nat} (inside : offset < r.length)
    {category : GeneralCategory} :
    r.run.kinds[offset]? = some (.category category) ↔ r.Gives offset category := by
  rw [Run.kinds, Record.run, Record.Gives]
  cases r.kind with
  | gap =>
    rw [unmark_replicate RunKind.noConfusion]
    simp [List.getElem?_replicate]
  | category other =>
    rw [unmark_replicate RunKind.noConfusion]
    simp [inside]
  | alternating =>
    rw [getElem?_alternating, if_pos inside, letterInTurn]
    obtain even | odd := Nat.mod_two_eq_zero_or_one offset
    · simp [even, eq_comm]
    · simp [odd, eq_comm]

private theorem getElem?_kinds_iff {records : List Record} {c : Nat} {category : GeneralCategory} :
    ((records.map Record.run).flatMap Run.kinds)[c]? = some (.category category) ↔
      Recorded records c category := by
  induction records generalizing c with
  | nil =>
    constructor
    · nofun
    · intro given
      obtain ⟨before, own, behind, same, _⟩ := given
      cases before <;> cases same
  | cons r records ih =>
    rw [List.map_cons, List.flatMap_cons, List.getElem?_append, Run.length_kinds, recorded_cons]
    change (if c < r.length then _ else _) = _ ↔ _
    split
    · exact Record.getElem?_kinds ‹_›
    · exact ih

/-- In the table a codepoint has the category that the record covering it gives, and no other. -/
structure NamedSets.Follows (table : NamedSets) (records : List Record) : Prop where
  category : ∀ category : GeneralCategory, ∃ set, table.get? category.name = some set ∧
    ∀ c, set.contains c = true ↔ c ≤ lastCodepoint ∧ Recorded records c category
  disjoint : ∀ (a b : GeneralCategory) (c : Nat), table.Matches a.name c → table.Matches b.name c → a = b

private theorem tabulate_follows (records : List Record) :
    (tabulate (placeRuns 0 (records.map Record.run))).Follows records := by
  have positive := positive_of_records records
  constructor
  · intro category
    refine ⟨_, get?_tabulate_category _ category, fun c => ?_⟩
    rw [CodepointSet.contains_iff_mem, mem_categorySet positive, getElem?_kinds_iff]
  · intro a b c first second
    rw [NamedSets.matches_iff_holds, holds_tabulate_category] at first second
    exact categorySet_disjoint positive first second

/-- A packed text is decoded exactly if it is that of some records, and refused otherwise for what is wrong
first. The table of some records has each category under its name: its codepoints are those covered by a
record of that category or, at even offsets for upper case letters and at odd ones for lower case letters,
by a record of letters in turn. No codepoint has two categories. -/
theorem decodes_exactly_records :
    (∀ packed, (∃ table, decodeCategories packed = .ok table) ↔ ∃ records, packed = recordText records) ∧
      (∀ packed e, decodeCategories packed = .error e ↔ FirstDefect packed e) ∧
      ∀ records, ∃ table, decodeCategories (recordText records) = .ok table ∧ table.Follows records :=
  ⟨fun _ => decodeCategories_ok_iff, fun _ _ => decodeCategories_error_iff,
    fun records => ⟨_, decodeCategories_recordText records, tabulate_follows records⟩⟩

end SchemaRegex.Unicode

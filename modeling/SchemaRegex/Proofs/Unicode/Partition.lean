import SchemaRegex.Proofs.Unicode.Records
import SchemaRegex.Proofs.Unicode.RoundTrip

/-!
# One category for each codepoint

The runs of a packed table follow each other, so no codepoint has two of their kinds. What no run gives
a category is unassigned, unless it is a surrogate. So the categories divide the codespace less the
surrogates, and a group has the codepoints of its categories (`category_table_partitions`).
-/

namespace SchemaRegex.Unicode

def Surrogate (c : Nat) : Prop := 0xD800 ≤ c ∧ c ≤ 0xDFFF

instance (c : Nat) : Decidable (Surrogate c) :=
  inferInstanceAs (Decidable (0xD800 ≤ c ∧ c ≤ 0xDFFF))

private theorem mem_surrogates {c : Nat} : c ∈ surrogates ↔ Surrogate c := by
  rw [surrogates, CodepointSet.mem_ofRanges, Surrogate]
  simp only [List.mem_singleton, exists_eq_left, lastCodepoint]
  omega

/-- What the runs of a table say about surrogates and unassigned codepoints: nothing. A run may pass over
surrogates only if it is a gap. -/
structure SaysNothing (runs : List Run) : Prop where
  unassigned : ∀ run ∈ runs, run.kind ≠ .category .unassigned
  surrogates : ∀ p ∈ placeRuns 0 runs, p.run.kind ≠ .gap →
    ∀ c, p.first ≤ c → c < p.first + p.run.length → ¬ Surrogate c

private theorem Run.kind_of_getElem? {run : Run} {i : Nat} {category : GeneralCategory}
    (kind : run.kinds[i]? = some (.category category)) :
    i < run.length ∧ run.kind ≠ .gap ∧
      (category = .unassigned → run.kind = .category .unassigned) := by
  have inside : i < run.kinds.length := (List.getElem?_eq_some_iff.mp kind).1
  rw [length_kinds] at inside
  refine ⟨inside, ?_⟩
  obtain ⟨own, length⟩ := run
  cases own with
  | gap =>
    rw [kinds, unmark_replicate RunKind.noConfusion] at kind
    simp [List.getElem?_replicate] at kind
  | category other =>
    rw [kinds, unmark_replicate RunKind.noConfusion, List.getElem?_replicate, if_pos inside] at kind
    cases kind
    exact ⟨RunKind.noConfusion, congrArg RunKind.category⟩
  | alternating =>
    rw [kinds, getElem?_alternating, if_pos inside] at kind
    refine ⟨RunKind.noConfusion, fun same => ?_⟩
    subst same
    unfold letterInTurn at kind
    split at kind <;> cases kind

private theorem exists_run_of_getElem? {runs : List Run} (next : Nat) {i : Nat} {category : GeneralCategory}
    (kind : (runs.flatMap Run.kinds)[i]? = some (.category category)) :
    ∃ p ∈ placeRuns next runs, p.run ∈ runs ∧ p.first ≤ next + i ∧
      p.run.kinds[next + i - p.first]? = some (.category category) := by
  induction runs generalizing next i with
  | nil => cases kind
  | cons run runs ih =>
    rw [List.flatMap_cons, List.getElem?_append, Run.length_kinds] at kind
    split at kind
    · exact ⟨⟨next, run⟩, List.mem_cons_self, List.mem_cons_self, Nat.le_add_right next i,
        by simpa using kind⟩
    · rename_i behind
      obtain ⟨p, member, own, low, found⟩ := ih (next + run.length) kind
      have same : next + run.length + (i - run.length) = next + i := by omega
      rw [same] at low found
      exact ⟨p, List.mem_cons_of_mem _ member, List.mem_cons_of_mem _ own, low, found⟩

private theorem SaysNothing.of_mem_categorySet {runs : List Run} (given : SaysNothing runs)
    (positive : ∀ run ∈ runs, 0 < run.length) {category : GeneralCategory} {c : Nat}
    (member : c ∈ categorySet (placeRuns 0 runs) category) :
    category ≠ .unassigned ∧ ¬ Surrogate c := by
  obtain ⟨p, placed, own, low, kind⟩ :=
    exists_run_of_getElem? 0 ((mem_categorySet positive).mp member).2
  rw [Nat.zero_add] at low kind
  obtain ⟨less, stated, unassigned⟩ := Run.kind_of_getElem? kind
  exact ⟨fun same => given.unassigned p.run own (unassigned same),
    given.surrogates p placed stated c low (by omega)⟩

namespace NamedSets

def Matches (table : NamedSets) (name : String) (c : Nat) : Prop :=
  ∃ set, table.get? name = some set ∧ set.contains c = true

theorem matches_iff_holds {table : NamedSets} {name : String} {c : Nat} :
    table.Matches name c ↔ table.Holds name c := by
  simp only [Matches, Holds, CodepointSet.contains_iff_mem]

/-- The categories divide the codespace less the surrogates, and the name of a group has what the
categories have whose names start with it. -/
structure Partitions (table : NamedSets) : Prop where
  unique : ∀ c, c ≤ lastCodepoint → ¬ Surrogate c →
    ∃! category : GeneralCategory, table.Matches category.name c
  surrogates : ∀ c, Surrogate c → ∀ category : GeneralCategory, ¬ table.Matches category.name c
  groups : ∀ (group : CategoryGroup) c, table.Matches group.name c ↔
    ∃ category : GeneralCategory, group.name.toList <+: category.name.toList ∧
      table.Matches category.name c

end NamedSets

section

variable {table : NamedSets} {c : Nat}

private theorem mem_assigned : c ∈ assigned table ↔ ∃ group : CategoryGroup, table.Holds group.name c := by
  have all (group : CategoryGroup) : group ∈ CategoryGroup.all := by cases group <;> decide
  simp only [assigned, CodepointSet.mem_unionAll, List.mem_filterMap, all, true_and, NamedSets.Holds]
  exact ⟨fun ⟨set, ⟨group, found⟩, member⟩ => ⟨group, set, found, member⟩,
    fun ⟨group, set, found, member⟩ => ⟨set, ⟨group, found⟩, member⟩⟩

private def NamedSets.Lacks (table : NamedSets) (c : Nat) : Prop :=
  c ≤ lastCodepoint ∧ (∀ group : CategoryGroup, ¬ table.Holds group.name c) ∧ ¬ Surrogate c

private theorem mem_unassigned : c ∈ (assigned table).complement.diff surrogates ↔ table.Lacks c := by
  rw [CodepointSet.mem_diff, CodepointSet.mem_complement, mem_surrogates, mem_assigned, not_exists,
    and_assoc, NamedSets.Lacks]

private theorem withUnassigned_of_has (has : table.Has CategoryGroup.other.name) :
    ∃ set, table.get? CategoryGroup.other.name = some set ∧ withUnassigned table =
      (table.insert CategoryGroup.other.name
        (set.union ((assigned table).complement.diff surrogates))).insert
          GeneralCategory.unassigned.name ((assigned table).complement.diff surrogates) := by
  obtain ⟨set, found⟩ := Option.isSome_iff_exists.mp has
  refine ⟨set, found, ?_⟩
  simp only [withUnassigned, found]

private theorem holds_withUnassigned_category (has : table.Has CategoryGroup.other.name)
    {category : GeneralCategory} : (withUnassigned table).Holds category.name c ↔
      if category = .unassigned then table.Lacks c else table.Holds category.name c := by
  obtain ⟨set, _, form⟩ := withUnassigned_of_has has
  rw [form, NamedSets.holds_insert, NamedSets.holds_insert, if_neg (category.name_ne_group_name _),
    mem_unassigned]
  by_cases same : category = .unassigned
  · rw [if_pos (congrArg _ same), if_pos same]
  · rw [if_neg fun names => same (GeneralCategory.name_injective names), if_neg same]

private theorem holds_withUnassigned_group (has : table.Has CategoryGroup.other.name)
    {group : CategoryGroup} : (withUnassigned table).Holds group.name c ↔
      table.Holds group.name c ∨ group = .other ∧ table.Lacks c := by
  obtain ⟨set, found, form⟩ := withUnassigned_of_has has
  rw [form, NamedSets.holds_insert, if_neg (GeneralCategory.name_ne_group_name _ _).symm,
    NamedSets.holds_insert, CodepointSet.mem_union, mem_unassigned]
  by_cases same : group = .other
  · subst same
    simp [NamedSets.Holds, found]
  · rw [if_neg fun names => same (CategoryGroup.name_injective names)]
    simp [same]

end

theorem holds_tabulate_category {runs : List PlacedRun} {category : GeneralCategory} {c : Nat} :
    (tabulate runs).Holds category.name c ↔ c ∈ categorySet runs category := by
  simp [NamedSets.Holds, get?_tabulate_category]

private theorem holds_tabulate_group {runs : List PlacedRun} {group : CategoryGroup} {c : Nat} :
    (tabulate runs).Holds group.name c ↔
      ∃ category, category.group = group ∧ c ∈ categorySet runs category := by
  obtain ⟨set, found, parts⟩ := get?_tabulate_group runs group
  simp [NamedSets.Holds, found, parts]

theorem categorySet_disjoint {runs : List Run} (positive : ∀ run ∈ runs, 0 < run.length)
    {a b : GeneralCategory} {c : Nat} (first : c ∈ categorySet (placeRuns 0 runs) a)
    (second : c ∈ categorySet (placeRuns 0 runs) b) : a = b := by
  have one := ((mem_categorySet positive).mp first).2
  have other := ((mem_categorySet positive).mp second).2
  exact RunKind.category.inj (Option.some.inj (one.symm.trans other))

/-- What no run gives a category is left, unless it is a surrogate. -/
theorem lacks_tabulate {runs : List PlacedRun} {c : Nat} :
    (tabulate runs).Lacks c ↔
      c ≤ lastCodepoint ∧ (∀ category, c ∉ categorySet runs category) ∧ ¬ Surrogate c := by
  simp only [NamedSets.Lacks, holds_tabulate_group]
  grind

private theorem categoryTable_eq {packed : List Char} {runs : List Run} (read : readRuns packed = .ok runs) :
    categoryTable packed = withUnassigned (tabulate (placeRuns 0 runs)) := by
  rw [categoryTable, decodeCategories, read]
  rfl

private theorem matches_category_iff {packed : List Char} {runs : List Run}
    (read : readRuns packed = .ok runs)
    (given : SaysNothing runs) {category : GeneralCategory} {c : Nat} :
    (categoryTable packed).Matches category.name c ↔
      c ∈ categorySet (placeRuns 0 runs) category ∨
        category = .unassigned ∧ (tabulate (placeRuns 0 runs)).Lacks c := by
  have has := (has_tabulate (placeRuns 0 runs) .control).2
  rw [NamedSets.matches_iff_holds, categoryTable_eq read, holds_withUnassigned_category has,
    holds_tabulate_category]
  by_cases same : category = .unassigned
  · have unsaid : c ∉ categorySet (placeRuns 0 runs) category := fun member =>
      (given.of_mem_categorySet (positive_of_readRuns read) member).1 same
    simp [same, same ▸ unsaid]
  · simp [same]

private theorem matches_group_iff {packed : List Char} {runs : List Run} (read : readRuns packed = .ok runs)
    {group : CategoryGroup} {c : Nat} : (categoryTable packed).Matches group.name c ↔
      (∃ category, category.group = group ∧ c ∈ categorySet (placeRuns 0 runs) category) ∨
        group = .other ∧ (tabulate (placeRuns 0 runs)).Lacks c := by
  have has := (has_tabulate (placeRuns 0 runs) .control).2
  rw [NamedSets.matches_iff_holds, categoryTable_eq read, holds_withUnassigned_group has,
    holds_tabulate_group]

/-- In a table made from runs that say nothing of surrogates and unassigned codepoints, the categories
divide the codespace less the surrogates. -/
theorem category_table_partitions {packed : List Char} {runs : List Run}
    (read : readRuns packed = .ok runs) (given : SaysNothing runs) :
    (categoryTable packed).Partitions := by
  have positive := positive_of_readRuns read
  refine ⟨fun c inside proper => ?_, fun c surrogate category holds => ?_, fun group c => ?_⟩
  · simp only [matches_category_iff read given]
    by_cases listed : ∃ category, c ∈ categorySet (placeRuns 0 runs) category
    · obtain ⟨category, member⟩ := listed
      refine ⟨category, .inl member, fun other holds => ?_⟩
      obtain also | ⟨_, lacks⟩ := holds
      · exact categorySet_disjoint positive also member
      · exact absurd member ((lacks_tabulate.mp lacks).2.1 category)
    · have lacks := lacks_tabulate.mpr ⟨inside, not_exists.mp listed, proper⟩
      refine ⟨.unassigned, .inr ⟨rfl, lacks⟩, fun other holds => ?_⟩
      obtain member | ⟨same, _⟩ := holds
      · exact absurd ⟨other, member⟩ listed
      · exact same
  · obtain member | ⟨_, lacks⟩ := (matches_category_iff read given).mp holds
    · exact (given.of_mem_categorySet positive member).2 surrogate
    · exact (lacks_tabulate.mp lacks).2.2 surrogate
  · simp only [matches_group_iff read, matches_category_iff read given,
      ← GeneralCategory.group_eq_iff]
    constructor
    · intro holds
      obtain ⟨category, member, inside⟩ | ⟨other, lacks⟩ := holds
      · exact ⟨category, member, .inl inside⟩
      · exact ⟨.unassigned, other.symm, .inr ⟨rfl, lacks⟩⟩
    · intro holds
      obtain ⟨category, member, inside | ⟨same, lacks⟩⟩ := holds
      · exact .inl ⟨category, member, inside⟩
      · exact .inr ⟨by rw [← member, same]; rfl, lacks⟩

def surveyedRuns : List Run :=
  [⟨.category .control, 0x20⟩, ⟨.alternating, 5⟩, ⟨.gap, 0xDFDB⟩, ⟨.category .otherLetter, 2⟩]

private theorem readRuns_surveyedRuns : readRuns (surveyedRuns.flatMap Run.write) = .ok surveyedRuns :=
  readRuns_write (by decide)

private theorem saysNothing_surveyedRuns : SaysNothing surveyedRuns := by
  refine ⟨by decide, fun p member stated c low high surrogate => ?_⟩
  obtain ⟨lowest, highest⟩ := surrogate
  simp only [surveyedRuns, placeRuns, List.mem_cons, List.not_mem_nil, or_false] at member
  obtain same | same | same | same := member
  all_goals subst same
  · simp only at high
    omega
  · simp only at high
    omega
  · exact stated rfl
  · simp only at low
    omega

theorem surveyed_table_partitions :
    readRuns (surveyedRuns.flatMap Run.write) = .ok surveyedRuns ∧ SaysNothing surveyedRuns ∧
      (categoryTable (surveyedRuns.flatMap Run.write)).Partitions :=
  ⟨readRuns_surveyedRuns, saysNothing_surveyedRuns,
    category_table_partitions readRuns_surveyedRuns saysNothing_surveyedRuns⟩

end SchemaRegex.Unicode

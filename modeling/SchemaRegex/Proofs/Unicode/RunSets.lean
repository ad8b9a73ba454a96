import SchemaRegex.Proofs.Unicode.Alternation
import SchemaRegex.Proofs.Unicode.CategoryNames

/-!
# The sets of a table of runs

Runs that follow each other from codepoint 0 on give every codepoint a kind. The table made from them
has, under the name of a category, the codepoints whose kind it is (`mem_categorySet`), and under the
name of a group those of all its categories.
-/

namespace SchemaRegex.Unicode

def Run.kinds (run : Run) : List RunKind := unmark false (List.replicate run.length run.kind)

@[simp] theorem Run.length_kinds (run : Run) : run.kinds.length = run.length := by
  rw [kinds, length_unmark, List.length_replicate]

theorem unmark_replicate {kind : RunKind} (plain : kind ≠ .alternating) (n : Nat) :
    unmark false (List.replicate n kind) = List.replicate n kind := by
  induction n with
  | zero => rfl
  | succ n ih => rw [List.replicate_succ, unmark_cons plain, ih]

theorem getElem?_alternating (odd : Bool) (n i : Nat) :
    (unmark odd (List.replicate n .alternating))[i]? =
      if i < n then some (letterInTurn (odd ^^ decide (i % 2 = 1))) else none := by
  induction n generalizing odd i with
  | zero => simp [unmark]
  | succ n ih =>
    rw [List.replicate_succ, unmark]
    cases i with
    | zero => simp
    | succ i =>
      rw [List.getElem?_cons_succ, ih]
      have parity : (!odd ^^ decide (i % 2 = 1)) = (odd ^^ decide ((i + 1) % 2 = 1)) := by
        obtain even | uneven : i % 2 = 0 ∨ i % 2 = 1 := by omega
        · have next : (i + 1) % 2 = 1 := by omega
          simp [even, next]
        · have next : (i + 1) % 2 = 0 := by omega
          simp [uneven, next]
      rw [parity]
      simp only [Nat.add_lt_add_iff_right]

theorem mem_everySecond {first stop c : Nat} (inside : c ≤ lastCodepoint) :
    (∃ r ∈ everySecond first stop, r.lo ≤ c ∧ c ≤ r.hi) ↔
      first ≤ c ∧ c < stop ∧ (c - first) % 2 = 0 := by
  simp only [everySecond, List.mem_map, List.mem_range']
  constructor
  · intro given
    obtain ⟨r, ⟨d, ⟨i, less, place⟩, same⟩, low, high⟩ := given
    subst same
    simp only at low high
    omega
  · intro given
    obtain ⟨low, high, even⟩ := given
    exact ⟨⟨c, c⟩, ⟨c, ⟨(c - first) / 2, by omega, by omega⟩, rfl⟩, Nat.le_refl c, Nat.le_refl c⟩

theorem mem_ranges_iff {first : Nat} {run : Run} (positive : 0 < run.length)
    (category : GeneralCategory) {c : Nat} (inside : c ≤ lastCodepoint) :
    (∃ r ∈ (PlacedRun.mk first run).ranges category, r.lo ≤ c ∧ c ≤ r.hi) ↔
      first ≤ c ∧ run.kinds[c - first]? = some (.category category) := by
  obtain ⟨kind, length⟩ := run
  cases kind with
  | gap =>
    rw [Run.kinds, unmark_replicate RunKind.noConfusion]
    simp [PlacedRun.ranges, List.getElem?_replicate]
  | category other =>
    rw [Run.kinds, unmark_replicate RunKind.noConfusion]
    simp only [PlacedRun.ranges, List.getElem?_replicate, Option.ite_none_right_eq_some,
      Option.some.injEq, RunKind.category.injEq, List.mem_ite_nil_right, List.mem_singleton]
    constructor
    · intro given
      obtain ⟨r, ⟨same, range⟩, low, high⟩ := given
      subst range
      simp only at low high positive
      exact ⟨low, by omega, same⟩
    · intro given
      obtain ⟨low, less, same⟩ := given
      exact ⟨_, ⟨same, rfl⟩, low, by simp only; omega⟩
  | alternating =>
    rw [Run.kinds, getElem?_alternating]
    simp only [PlacedRun.ranges, Option.ite_none_right_eq_some, Option.some.injEq, letterInTurn,
      RunKind.category.injEq, Bool.false_bne]
    by_cases upper : category = .uppercaseLetter
    · rw [if_pos upper, mem_everySecond inside, upper]
      simp only [ite_eq_right_iff, reduceCtorEq, imp_false, decide_eq_true_eq]
      omega
    rw [if_neg upper]
    by_cases lower : category = .lowercaseLetter
    · rw [if_pos lower, mem_everySecond inside, lower]
      simp only [ite_eq_left_iff, reduceCtorEq, imp_false, decide_eq_true_eq, Decidable.not_not]
      omega
    · rw [if_neg lower]
      simp only [List.not_mem_nil, false_and, exists_false, false_iff, not_and]
      intro _ _
      split
      · exact Ne.symm lower
      · exact Ne.symm upper

def categorySet (runs : List PlacedRun) (category : GeneralCategory) : CodepointSet :=
  .ofRanges (runs.flatMap (·.ranges category))

theorem mem_placeRuns_iff (next : Nat) {runs : List Run} (positive : ∀ run ∈ runs, 0 < run.length)
    {category : GeneralCategory} {c : Nat} (inside : c ≤ lastCodepoint) :
    (∃ r ∈ (placeRuns next runs).flatMap (·.ranges category), r.lo ≤ c ∧ c ≤ r.hi) ↔
      next ≤ c ∧ (runs.flatMap Run.kinds)[c - next]? = some (.category category) := by
  induction runs generalizing next with
  | nil => simp [placeRuns]
  | cons run runs ih =>
    have here : (∃ r ∈ (PlacedRun.mk next run).ranges category, r.lo ≤ c ∧ c ≤ r.hi) ↔
        next ≤ c ∧ run.kinds[c - next]? = some (.category category) :=
      mem_ranges_iff (positive run List.mem_cons_self) category inside
    have later := ih (next + run.length)
      fun other member => positive other (List.mem_cons_of_mem run member)
    simp only [placeRuns, List.flatMap_cons, List.mem_append, or_and_right, exists_or, here, later,
      List.getElem?_append, Run.length_kinds]
    by_cases low : next ≤ c
    · by_cases less : c - next < run.length
      · have before : ¬ next + run.length ≤ c := by omega
        simp [low, less, before]
      · have behind : next + run.length ≤ c := by omega
        simp [low, less, behind, Nat.sub_sub]
    · have before : ¬ next + run.length ≤ c := by omega
      simp [low, before]

/-- A codepoint is in the set of a category if that is its kind. -/
theorem mem_categorySet {runs : List Run} (positive : ∀ run ∈ runs, 0 < run.length)
    {category : GeneralCategory} {c : Nat} :
    c ∈ categorySet (placeRuns 0 runs) category ↔
      c ≤ lastCodepoint ∧ (runs.flatMap Run.kinds)[c]? = some (.category category) := by
  rw [categorySet, CodepointSet.mem_ofRanges]
  refine and_congr_right fun inside => ?_
  rw [mem_placeRuns_iff 0 positive inside]
  simp

theorem GeneralCategory.name_injective {a b : GeneralCategory} (same : a.name = b.name) : a = b := by
  have found := congrArg ofName? same
  rw [ofName?_name, ofName?_name] at found
  exact Option.some.inj found

theorem GeneralCategory.name_ne_group_name (category : GeneralCategory) (group : CategoryGroup) :
    category.name ≠ group.name := by
  cases category <;> cases group <;> decide

theorem CategoryGroup.name_injective {g h : CategoryGroup} (same : g.name = h.name) : g = h := by
  revert same
  cases g <;> cases h <;> decide

theorem CategoryGroup.exists_category (group : CategoryGroup) :
    ∃ category : GeneralCategory, category.group = group := by
  cases group with
  | letter => exact ⟨.uppercaseLetter, rfl⟩
  | mark => exact ⟨.nonspacingMark, rfl⟩
  | number => exact ⟨.decimalNumber, rfl⟩
  | punctuation => exact ⟨.connectorPunctuation, rfl⟩
  | separator => exact ⟨.spaceSeparator, rfl⟩
  | symbol => exact ⟨.mathSymbol, rfl⟩
  | other => exact ⟨.control, rfl⟩

def addCategory (runs : List PlacedRun) (table : NamedSets) (category : GeneralCategory) : NamedSets :=
  (table.extend category.group.name (categorySet runs category)).insert category.name
    (categorySet runs category)

theorem tabulate_eq (runs : List PlacedRun) :
    tabulate runs = GeneralCategory.all.foldl (addCategory runs) .empty := rfl

def NamedSets.Holds (t : NamedSets) (name : String) (c : Nat) : Prop :=
  ∃ set, t.get? name = some set ∧ c ∈ set

theorem NamedSets.holds_extend {t : NamedSets} {name other : String} {set : CodepointSet} {c : Nat} :
    (t.extend name set).Holds other c ↔ t.Holds other c ∨ other = name ∧ c ∈ set := by
  unfold Holds
  rw [get?_extend]
  by_cases same : other = name
  · subst same
    cases t.get? other <;> simp
  · simp [same]

theorem NamedSets.holds_insert {t : NamedSets} {name other : String} {set : CodepointSet} {c : Nat} :
    (t.insert name set).Holds other c ↔ if other = name then c ∈ set else t.Holds other c := by
  unfold Holds
  rw [get?_insert]
  by_cases same : other = name <;> simp [same]

variable {runs : List PlacedRun} {categories : List GeneralCategory} {t : NamedSets}

theorem get?_foldl_addCategory (category : GeneralCategory) :
    (categories.foldl (addCategory runs) t).get? category.name =
      if category ∈ categories then some (categorySet runs category) else t.get? category.name := by
  induction categories generalizing t with
  | nil => simp
  | cons other categories ih =>
    rw [List.foldl_cons, ih, addCategory, NamedSets.get?_insert, NamedSets.get?_extend,
      if_neg (category.name_ne_group_name other.group)]
    by_cases same : category = other
    · simp [same]
    · have names : category.name ≠ other.name := fun equal => same (GeneralCategory.name_injective equal)
      simp [same, names]

theorem holds_foldl_addCategory (group : CategoryGroup) (c : Nat) :
    (categories.foldl (addCategory runs) t).Holds group.name c ↔
      t.Holds group.name c ∨
        ∃ category ∈ categories, category.group = group ∧ c ∈ categorySet runs category := by
  induction categories generalizing t with
  | nil => simp
  | cons other categories ih =>
    have groups : group.name = other.group.name ↔ other.group = group :=
      ⟨fun same => (CategoryGroup.name_injective same).symm, fun same => by rw [same]⟩
    rw [List.foldl_cons, ih, addCategory, NamedSets.holds_insert,
      if_neg (other.name_ne_group_name group).symm, NamedSets.holds_extend, groups]
    simp [or_assoc]

theorem exists_category_of_holds {name : String} {c : Nat}
    (holds : (categories.foldl (addCategory runs) t).Holds name c) :
    t.Holds name c ∨ ∃ category ∈ categories, c ∈ categorySet runs category := by
  induction categories generalizing t with
  | nil => exact .inl holds
  | cons category categories ih =>
    obtain first | ⟨other, member, inside⟩ := ih holds
    · rw [addCategory, NamedSets.holds_insert, NamedSets.holds_extend] at first
      split at first
      · exact .inr ⟨category, List.mem_cons_self, first⟩
      · exact first.imp id fun added => ⟨category, List.mem_cons_self, added.2⟩
    · exact .inr ⟨other, List.mem_cons_of_mem category member, inside⟩

theorem not_holds_empty (name : String) (c : Nat) : ¬ NamedSets.empty.Holds name c := by
  intro holds
  obtain ⟨set, found, _⟩ := holds
  cases found

theorem get?_tabulate_category (runs : List PlacedRun) (category : GeneralCategory) :
    (tabulate runs).get? category.name = some (categorySet runs category) := by
  rw [tabulate_eq, get?_foldl_addCategory, if_pos (GeneralCategory.mem_all category)]

theorem get?_tabulate_group (runs : List PlacedRun) (group : CategoryGroup) :
    ∃ set, (tabulate runs).get? group.name = some set ∧
      ∀ c, c ∈ set ↔ ∃ category, category.group = group ∧ c ∈ categorySet runs category := by
  obtain ⟨category, member⟩ := group.exists_category
  obtain ⟨set, found⟩ := Option.isSome_iff_exists.mp (has_tabulate runs category).2
  rw [member] at found
  refine ⟨set, found, fun c => ?_⟩
  have inside : c ∈ set ↔ (tabulate runs).Holds group.name c := by
    simp [NamedSets.Holds, found]
  rw [inside, tabulate_eq, holds_foldl_addCategory]
  simp [not_holds_empty, GeneralCategory.mem_all]

/-- What is under any name is in the set of some category. -/
theorem exists_category_of_tabulate {name : String} {set : CodepointSet} {c : Nat}
    (found : (tabulate runs).get? name = some set) (inside : c ∈ set) :
    ∃ category, c ∈ categorySet runs category := by
  obtain none | ⟨category, _, member⟩ := exists_category_of_holds (t := .empty) ⟨set, found, inside⟩
  · exact absurd none (not_holds_empty name c)
  · exact ⟨category, member⟩

end SchemaRegex.Unicode

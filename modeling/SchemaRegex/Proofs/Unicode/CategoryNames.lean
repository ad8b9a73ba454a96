import SchemaRegex.Proofs.Unicode.PackedTable
import SchemaRegex.Unicode.Properties

/-!
# The names of categories

A group has a name of one letter, and each of its categories one more letter. All 36 names have a set
in the table (`category?_isSome`).
-/

namespace SchemaRegex.Unicode

def CategoryGroup.letters : CategoryGroup → List Char
  | letter => ['u', 'l', 't', 'm', 'o']
  | mark => ['n', 'c', 'e']
  | number => ['d', 'l', 'o']
  | punctuation => ['c', 'd', 's', 'e', 'i', 'f', 'o']
  | separator => ['s', 'l', 'p']
  | symbol => ['m', 'c', 'k', 'o']
  | other => ['c', 'f', 'o', 'n']

def categoryNames : List String :=
  CategoryGroup.all.map CategoryGroup.name ++ GeneralCategory.all.map GeneralCategory.name

theorem mem_categoryNames_of_letters (group : CategoryGroup) :
    group.name ∈ categoryNames ∧
      ∀ c ∈ group.letters, String.ofList (group.name.toList ++ [c]) ∈ categoryNames := by
  have table : (group.letters.all fun c =>
      decide (String.ofList (group.name.toList ++ [c]) ∈ categoryNames)) = true := by
    cases group <;> decide
  refine ⟨by cases group <;> decide, fun c letter => ?_⟩
  exact of_decide_eq_true (List.all_eq_true.mp table c letter)

theorem letters_of_mem_categoryNames {name : String} (member : name ∈ categoryNames) :
    ∃ group : CategoryGroup, name = group.name ∨
      ∃ c ∈ group.letters, name = String.ofList (group.name.toList ++ [c]) := by
  have table : ∀ name ∈ categoryNames, ∃ group ∈ CategoryGroup.all, name = group.name ∨
      (group.letters.any fun c => decide (name = String.ofList (group.name.toList ++ [c]))) = true := by
    decide
  obtain ⟨group, _, same | longer⟩ := table name member
  · exact ⟨group, .inl same⟩
  · obtain ⟨c, letter, same⟩ := List.any_eq_true.mp longer
    exact ⟨group, .inr ⟨c, letter, of_decide_eq_true same⟩⟩

namespace NamedSets

def Has (t : NamedSets) (name : String) : Prop := (t.get? name).isSome

theorem has_insert {t : NamedSets} {name other : String} {set : CodepointSet} :
    (t.insert name set).Has other ↔ other = name ∨ t.Has other := by
  rw [Has, Has, get?_insert]
  by_cases same : other = name <;> simp [same]

theorem has_extend {t : NamedSets} {name other : String} {set : CodepointSet} :
    (t.extend name set).Has other ↔ other = name ∨ t.Has other := by
  rw [Has, Has, get?_extend]
  by_cases same : other = name <;> simp [same]

end NamedSets

theorem has_tabulate (runs : List PlacedRun) (category : GeneralCategory) :
    (tabulate runs).Has category.name ∧ (tabulate runs).Has category.group.name := by
  have grows (categories : List GeneralCategory) (t : NamedSets) (name : String) :
      (categories.foldl (fun table category =>
        let set := CodepointSet.ofRanges (runs.flatMap (·.ranges category))
        (table.extend category.group.name set).insert category.name set) t).Has name ↔
      t.Has name ∨ ∃ c ∈ categories, name = c.name ∨ name = c.group.name := by
    induction categories generalizing t with
    | nil => simp
    | cons c categories ih =>
      rw [List.foldl_cons, ih, NamedSets.has_insert, NamedSets.has_extend]
      simp only [List.mem_cons, exists_eq_or_imp]
      grind
  have member := GeneralCategory.mem_all category
  exact ⟨(grows _ _ _).mpr (.inr ⟨category, member, .inl rfl⟩),
    (grows _ _ _).mpr (.inr ⟨category, member, .inr rfl⟩)⟩

theorem NamedSets.Has.withUnassigned {t : NamedSets} {name : String} (has : t.Has name) :
    (withUnassigned t).Has name := by
  rw [Unicode.withUnassigned, has_insert]
  refine .inr ?_
  split
  · exact has
  · exact has_insert.mpr (.inr has)

theorem category?_isSome {name : String} (member : name ∈ categoryNames) :
    (category? name).isSome := by
  have table : ∀ name ∈ categoryNames, ∃ category ∈ GeneralCategory.all,
      name = category.name ∨ name = category.group.name := by
    decide
  obtain ⟨category, _, form⟩ := table name member
  obtain ⟨runs, read⟩ := readRuns_packedCategories
  have decoded : categories = withUnassigned (tabulate (placeRuns 0 runs)) := by
    rw [categories, categoryTable, decodeCategories, read]
    rfl
  have has := has_tabulate (placeRuns 0 runs) category
  rw [category?, decoded]
  apply NamedSets.Has.withUnassigned
  obtain same | same := form
  · exact same ▸ has.1
  · exact same ▸ has.2

end SchemaRegex.Unicode

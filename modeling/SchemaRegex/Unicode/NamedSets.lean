import SchemaRegex.CodepointSet.Basic

/-!
# Sets by name

A table from names to sets of codepoints. `extend` joins a set to what a name already holds,
`insert` replaces it.
-/

namespace SchemaRegex.Unicode

structure NamedSets where
  entries : List (String × CodepointSet)

namespace NamedSets

def empty : NamedSets := ⟨[]⟩

def get? (t : NamedSets) (name : String) : Option CodepointSet := t.entries.lookup name

def size (t : NamedSets) : Nat := t.entries.length

def alter (change : Option CodepointSet → CodepointSet) (name : String) :
    List (String × CodepointSet) → List (String × CodepointSet)
  | [] => [(name, change none)]
  | (n, s) :: entries =>
    if n = name then (n, change (some s)) :: entries else (n, s) :: alter change name entries

def insert (t : NamedSets) (name : String) (s : CodepointSet) : NamedSets :=
  ⟨alter (fun _ => s) name t.entries⟩

def extend (t : NamedSets) (name : String) (s : CodepointSet) : NamedSets :=
  ⟨alter (fun | none => s | some old => old.union s) name t.entries⟩

theorem lookup_alter (change : Option CodepointSet → CodepointSet) (name other : String)
    (entries : List (String × CodepointSet)) :
    (alter change name entries).lookup other =
      if other = name then some (change (entries.lookup name)) else entries.lookup other := by
  induction entries with
  | nil =>
    by_cases h : other = name
    · simp [alter, h]
    · have : (other == name) = false := by simpa using h
      simp [alter, List.lookup_cons, h, this]
  | cons entry entries ih =>
    obtain ⟨n, s⟩ := entry
    simp only [alter]
    split
    · rename_i same
      subst same
      by_cases h : other = n
      · simp [h]
      · have : (other == n) = false := by simpa using h
        simp [List.lookup_cons, h, this]
    · rename_i different
      by_cases h : other = n
      · subst h
        simp [different]
      · by_cases k : other = name
        · subst k
          have : (other == n) = false := by simpa using h
          simp [List.lookup_cons, this, ih]
        · have : (other == n) = false := by simpa using h
          simp [List.lookup_cons, this, ih, k]

theorem get?_insert (t : NamedSets) (name other : String) (s : CodepointSet) :
    (t.insert name s).get? other = if other = name then some s else t.get? other :=
  lookup_alter _ _ _ _

theorem get?_extend (t : NamedSets) (name other : String) (s : CodepointSet) :
    (t.extend name s).get? other =
      if other = name then some (match t.get? name with | none => s | some old => old.union s)
      else t.get? other :=
  lookup_alter _ _ _ _

end NamedSets

end SchemaRegex.Unicode

import SchemaRegex.CodepointSet.Range

/-!
# Sets of codepoints

A `CodepointSet` is a canonical list of ranges, so two sets with the same members are equal
(`CodepointSet.ext_mem`) and no set holds a mark beyond the codespace. Each operation is described
by its members.
-/

namespace SchemaRegex

structure CodepointSet where
  ranges : Array Range
  canonical : Ranges.Canonical ranges.toList
deriving DecidableEq

structure RangeOrderError where
  first : Nat
  last : Nat
deriving DecidableEq, Repr

def RangeOrderError.message (_ : RangeOrderError) : String :=
  "character range is in the wrong order"

namespace CodepointSet

def ofCanonical (rs : List Range) (canonical : Ranges.Canonical rs) : CodepointSet :=
  ⟨rs.toArray, by simpa using canonical⟩

instance : Membership Nat CodepointSet where
  mem s c := Ranges.Covers s.ranges.toList c

theorem mem_iff {s : CodepointSet} {c : Nat} : c ∈ s ↔ ∃ r ∈ s.ranges, r.lo ≤ c ∧ c ≤ r.hi := by
  change Ranges.Covers s.ranges.toList c ↔ _
  simp only [Ranges.Covers, Array.mem_toList_iff, Range.mem_iff]

@[simp] theorem mem_ofCanonical {rs : List Range} {canonical : Ranges.Canonical rs} {c : Nat} :
    c ∈ ofCanonical rs canonical ↔ Ranges.Covers rs c := Iff.rfl

theorem ext_mem {s t : CodepointSet} (same : ∀ c, c ∈ s ↔ c ∈ t) : s = t := by
  have lists := Ranges.eq_of_canonical s.canonical t.canonical same
  cases s
  cases t
  simpa using lists

theorem le_lastCodepoint_of_mem {s : CodepointSet} {c : Nat} (h : c ∈ s) : c ≤ lastCodepoint :=
  Ranges.le_lastCodepoint_of_covers s.canonical h

/-- The codepoints in some ranges, which may overlap and come in any order. What lies beyond the
codespace is left out, and so are ranges that end before they start. -/
def ofRanges (rs : List Range) : CodepointSet :=
  ofCanonical (Ranges.arrange (rs.filterMap Range.clip?))
    (Ranges.arrange_canonical _ fun _ => Ranges.valid_of_mem_clipped).1

theorem mem_ofRanges {rs : List Range} {c : Nat} :
    c ∈ ofRanges rs ↔ c ≤ lastCodepoint ∧ ∃ r ∈ rs, r.lo ≤ c ∧ c ≤ r.hi := by
  have members :=
    (Ranges.arrange_canonical (rs.filterMap Range.clip?) fun _ => Ranges.valid_of_mem_clipped).2 c
  rw [ofRanges, mem_ofCanonical, members]
  simp only [Ranges.Covers, List.mem_filterMap, Range.clip?, Option.ite_none_right_eq_some,
    Option.some.injEq, Range.mem_iff]
  constructor
  · rintro ⟨_, ⟨r, m, ⟨_, _⟩, rfl⟩, _, _⟩
    simp only at *
    exact ⟨by omega, r, m, by omega, by omega⟩
  · rintro ⟨_, r, m, _, _⟩
    exact ⟨_, ⟨r, m, ⟨by omega, by omega⟩, rfl⟩, by simp only; omega, by simp only; omega⟩

def empty : CodepointSet := ofCanonical [] Ranges.canonical_nil

instance : EmptyCollection CodepointSet := ⟨empty⟩

instance : Inhabited CodepointSet := ⟨empty⟩

def full : CodepointSet := ofCanonical [⟨0, lastCodepoint⟩] ⟨by decide, by decide⟩

/-- Everything but line feed and carriage return: the meaning of `.` in a pattern. -/
def wildcard : CodepointSet :=
  ofCanonical [⟨0, 0x09⟩, ⟨0x0B, 0x0C⟩, ⟨0x0E, lastCodepoint⟩] ⟨by decide, by decide⟩

/-- A range of the codespace is stored as it is. Of any other the part in the codespace is. -/
def ofRange (r : Range) : CodepointSet :=
  if valid : r.Valid then ofCanonical [r] (Ranges.canonical_singleton valid) else ofRanges [r]

def singleton (c : Nat) : CodepointSet := ofRange ⟨c, c⟩

def ofBounds (first last : Nat) : Except RangeOrderError CodepointSet :=
  if last < first then .error ⟨first, last⟩ else .ok (ofRange ⟨first, last⟩)

@[simp] theorem not_mem_empty (c : Nat) : c ∉ empty := Ranges.not_covers_nil c

@[simp] theorem mem_full {c : Nat} : c ∈ full ↔ c ≤ lastCodepoint := by
  simp [full, Ranges.Covers, Range.mem_iff]

theorem mem_wildcard {c : Nat} :
    c ∈ wildcard ↔ c ≤ lastCodepoint ∧ c ≠ 0x0A ∧ c ≠ 0x0D := by
  rw [wildcard, mem_ofCanonical]
  simp only [Ranges.Covers, Range.mem_iff, List.mem_cons, List.not_mem_nil, or_false,
    exists_eq_or_imp, exists_eq_left, lastCodepoint]
  omega

/-- Nothing needs to be put in order if there is only one range. -/
theorem ofRange_eq (r : Range) : ofRange r = ofRanges [r] := by
  unfold ofRange
  split
  · rename_i valid
    refine ext_mem fun c => ?_
    have bound := valid.2
    rw [mem_ofCanonical, mem_ofRanges]
    simp only [Ranges.Covers, Range.mem_iff, List.mem_singleton, exists_eq_left]
    omega
  · rfl

@[simp] theorem mem_singleton {a c : Nat} : c ∈ singleton a ↔ c ≤ lastCodepoint ∧ c = a := by
  rw [singleton, ofRange_eq, mem_ofRanges]
  simp only [List.mem_singleton, exists_eq_left]
  omega

def isEmpty (s : CodepointSet) : Bool := s.ranges.isEmpty

theorem valid_of_mem_append {s t : CodepointSet} {r : Range}
    (member : r ∈ s.ranges.toList ++ t.ranges.toList) : r.Valid := by
  rcases List.mem_append.1 member with left | right
  · exact s.canonical.valid r left
  · exact t.canonical.valid r right

def union (s t : CodepointSet) : CodepointSet :=
  if t.isEmpty || s == t then s
  else if s.isEmpty then t
  else ofCanonical (Ranges.arrange (s.ranges.toList ++ t.ranges.toList))
    (Ranges.arrange_canonical _ fun _ => valid_of_mem_append).1

instance : Union CodepointSet := ⟨union⟩

def diff (s t : CodepointSet) : CodepointSet :=
  ofCanonical (Ranges.subtract s.ranges.toList t.ranges.toList)
    (Ranges.subtract_canonical s.canonical t.canonical).1

instance : SDiff CodepointSet := ⟨diff⟩

def complement (s : CodepointSet) : CodepointSet :=
  ofCanonical (Ranges.gaps 0 s.ranges.toList) (Ranges.gaps_canonical s.canonical (by simp))

theorem eq_empty_of_isEmpty {s : CodepointSet} (h : s.isEmpty = true) : s = empty := by
  simp only [isEmpty, Array.isEmpty_iff] at h
  cases s
  subst h
  rfl

@[simp] theorem mem_union {s t : CodepointSet} {c : Nat} : c ∈ s.union t ↔ c ∈ s ∨ c ∈ t := by
  simp only [union, Bool.or_eq_true, beq_iff_eq]
  split
  · rename_i h
    rcases h with h | rfl
    · simp [eq_empty_of_isEmpty h]
    · simp
  · split
    · rename_i h
      simp [eq_empty_of_isEmpty h]
    · have members := (Ranges.arrange_canonical (s.ranges.toList ++ t.ranges.toList)
        fun _ => valid_of_mem_append).2 c
      rw [mem_ofCanonical, members, Ranges.covers_append]
      exact Iff.rfl

@[simp] theorem mem_diff {s t : CodepointSet} {c : Nat} : c ∈ s.diff t ↔ c ∈ s ∧ c ∉ t :=
  Ranges.covers_subtract s.canonical t.canonical

@[simp] theorem mem_complement {s : CodepointSet} {c : Nat} :
    c ∈ s.complement ↔ c ≤ lastCodepoint ∧ c ∉ s := by
  refine (Ranges.covers_gaps s.canonical (by simp)).trans ?_
  simp only [Nat.zero_le, true_and]
  exact Iff.rfl

def unionAll (sets : List CodepointSet) : CodepointSet :=
  ofRanges (sets.flatMap fun s => s.ranges.toList)

@[simp] theorem mem_unionAll {sets : List CodepointSet} {c : Nat} :
    c ∈ unionAll sets ↔ ∃ s ∈ sets, c ∈ s := by
  simp only [unionAll, mem_ofRanges, List.mem_flatMap, Array.mem_toList_iff]
  constructor
  · rintro ⟨_, r, ⟨s, member, part⟩, bounds⟩
    exact ⟨s, member, mem_iff.2 ⟨r, part, bounds⟩⟩
  · rintro ⟨s, member, inside⟩
    obtain ⟨r, part, bounds⟩ := mem_iff.1 inside
    exact ⟨le_lastCodepoint_of_mem inside, r, ⟨s, member, part⟩, bounds⟩

def search (ranges : Array Range) (c lo hi : Nat) : Bool :=
  if lo < hi then
    match ranges[(lo + hi) / 2]? with
    | none => false
    | some r =>
      if r.hi < c then search ranges c ((lo + hi) / 2 + 1) hi
      else if c < r.lo then search ranges c lo ((lo + hi) / 2)
      else true
  else false
termination_by hi - lo

def contains (s : CodepointSet) (c : Nat) : Bool :=
  search s.ranges c 0 s.ranges.size

theorem search_eq_true_iff {ranges : Array Range} {c lo hi : Nat}
    (canonical : Ranges.Canonical ranges.toList) (bound : hi ≤ ranges.size) :
    search ranges c lo hi = true ↔
      ∃ i, ∃ h : i < ranges.size, lo ≤ i ∧ i < hi ∧ c ∈ ranges[i] := by
  have ordered {i j : Nat} (hi : i < ranges.size) (hj : j < ranges.size) (h : i < j) :
      (ranges[i]).hi < (ranges[j]).lo := by
    have := List.pairwise_iff_getElem.1 canonical.ordered i j (by simpa using hi)
      (by simpa using hj) h
    simp only [Range.Before, Array.getElem_toList] at this
    omega
  have nonempty {i : Nat} (hi : i < ranges.size) : (ranges[i]).lo ≤ (ranges[i]).hi :=
    (canonical.valid ranges[i] (by simp)).1
  fun_induction search ranges c lo hi with
  | case1 lo hi window none => simp at none; omega
  | case2 lo hi window r found low ih =>
    obtain ⟨inside, rfl⟩ := Array.getElem?_eq_some_iff.1 found
    refine (ih bound).trans ?_
    constructor
    · rintro ⟨i, h, _, _, m⟩
      exact ⟨i, h, by omega, by omega, m⟩
    · rintro ⟨i, h, _, _, m⟩
      refine ⟨i, h, Nat.lt_of_not_le fun le => ?_, by omega, m⟩
      have := m.2
      rcases Nat.lt_or_eq_of_le le with lt | rfl
      · have := ordered h inside lt
        have := nonempty inside
        omega
      · omega
  | case3 lo hi window r found _ high ih =>
    obtain ⟨inside, rfl⟩ := Array.getElem?_eq_some_iff.1 found
    refine (ih (by omega)).trans ?_
    constructor
    · rintro ⟨i, h, _, _, m⟩
      exact ⟨i, h, by omega, by omega, m⟩
    · rintro ⟨i, h, _, _, m⟩
      refine ⟨i, h, by omega, Nat.lt_of_not_le fun le => ?_, m⟩
      have := m.1
      rcases Nat.lt_or_eq_of_le le with lt | eq
      · have := ordered inside h lt
        have := nonempty inside
        omega
      · subst eq
        omega
  | case4 lo hi window r found _ _ =>
    obtain ⟨inside, rfl⟩ := Array.getElem?_eq_some_iff.1 found
    simp only [true_iff]
    exact ⟨(lo + hi) / 2, inside, by omega, by omega, by omega, by omega⟩
  | case5 lo hi window =>
    simp only [Bool.false_eq_true, false_iff]
    rintro ⟨i, h, _, _, _⟩
    omega

@[simp] theorem contains_iff_mem {s : CodepointSet} {c : Nat} : s.contains c = true ↔ c ∈ s := by
  rw [contains, search_eq_true_iff s.canonical (Nat.le_refl _), mem_iff]
  constructor
  · rintro ⟨i, h, _, _, m⟩
    exact ⟨_, Array.getElem_mem h, m⟩
  · rintro ⟨r, m, inside⟩
    obtain ⟨i, h, rfl⟩ := Array.getElem_of_mem m
    exact ⟨i, h, by omega, h, inside⟩

instance (c : Nat) (s : CodepointSet) : Decidable (c ∈ s) :=
  decidable_of_iff _ contains_iff_mem

end CodepointSet

end SchemaRegex

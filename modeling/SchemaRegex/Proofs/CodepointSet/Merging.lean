import SchemaRegex.CodepointSet.Basic

/-!
# Merging ranges

Sorting ranges by their bounds and joining those that touch gives the same ranges as the ways around
it: a list in order is left alone, and a union with the empty set or with the set itself is not
computed. None of them loses a member (`merging_keeps_members`).
-/

namespace SchemaRegex

namespace Ranges

def boundsLE (r s : Range) : Bool := r.lo < s.lo || r.lo == s.lo && r.hi ≤ s.hi

def merged (rs : List Range) : List Range := ((rs.mergeSort boundsLE).foldl absorb []).reverse

private theorem boundsLE_iff {r s : Range} :
    boundsLE r s = true ↔ r.lo < s.lo ∨ r.lo = s.lo ∧ r.hi ≤ s.hi := by
  simp only [boundsLE, Bool.or_eq_true, Bool.and_eq_true, decide_eq_true_eq, beq_iff_eq]

private theorem boundsLE_trans (r s t : Range) (first : boundsLE r s = true) (second : boundsLE s t = true) :
    boundsLE r t = true := by
  rw [boundsLE_iff] at *
  omega

private theorem boundsLE_total (r s : Range) : (boundsLE r s || boundsLE s r) = true := by
  rw [Bool.or_eq_true, boundsLE_iff, boundsLE_iff]
  omega

private theorem mergeSort_ascends (rs : List Range) :
    (rs.mergeSort boundsLE).Pairwise fun r s => r.lo ≤ s.lo := by
  apply (List.pairwise_mergeSort boundsLE_trans boundsLE_total rs).imp
  intro r s ordered
  rw [boundsLE_iff] at ordered
  omega

private theorem merged_canonical {rs : List Range} (valid : ∀ r ∈ rs, r.Valid) :
    Canonical (merged rs) ∧ ∀ c, Covers (merged rs) c ↔ Covers rs c := by
  have valid : ∀ r ∈ rs.mergeSort boundsLE, r.Valid := fun r member =>
    valid r (List.mem_mergeSort.mp member)
  obtain ⟨canonical, members⟩ := joined_canonical valid (mergeSort_ascends rs)
  refine ⟨canonical, fun c => (members c).trans ?_⟩
  simp only [Covers, List.mem_mergeSort]

/-- Leaving a list in order alone gives what merging it gives. -/
theorem arrange_eq_merged {rs : List Range} (valid : ∀ r ∈ rs, r.Valid) : arrange rs = merged rs := by
  obtain ⟨arranged, same⟩ := arrange_canonical rs valid
  obtain ⟨canonical, members⟩ := merged_canonical valid
  apply eq_of_canonical arranged canonical
  intro c
  rw [same, members]

end Ranges

namespace CodepointSet

private theorem ranges_ofRanges (rs : List Range) :
    (ofRanges rs).ranges.toList = Ranges.merged (rs.filterMap Range.clip?) := by
  apply Ranges.arrange_eq_merged
  intro r member
  exact Ranges.valid_of_mem_clipped member

/-- Whichever way a union takes, it has the ranges that merging gives. -/
theorem ranges_union (s t : CodepointSet) :
    (s.union t).ranges.toList = Ranges.merged (s.ranges.toList ++ t.ranges.toList) := by
  obtain ⟨canonical, members⟩ :=
    Ranges.merged_canonical fun r (member : r ∈ s.ranges.toList ++ t.ranges.toList) =>
      valid_of_mem_append member
  apply Ranges.eq_of_canonical (s.union t).canonical canonical
  intro c
  rw [members, Ranges.covers_append]
  exact mem_union

end CodepointSet

/-- A set of any ranges holds the codepoints in one of them, up to the end of the codespace, and a
union those of either set. The ranges are those that merging gives, whichever way they come about. -/
theorem merging_keeps_members :
    (∀ rs : List Range,
        (CodepointSet.ofRanges rs).ranges.toList = Ranges.merged (rs.filterMap Range.clip?) ∧
          ∀ c, (CodepointSet.ofRanges rs).contains c = true ↔
            c ≤ lastCodepoint ∧ ∃ r ∈ rs, r.lo ≤ c ∧ c ≤ r.hi) ∧
      ∀ s t : CodepointSet,
        (s.union t).ranges.toList = Ranges.merged (s.ranges.toList ++ t.ranges.toList) ∧
          ∀ c, (s.union t).contains c = true ↔ s.contains c = true ∨ t.contains c = true := by
  constructor
  · intro rs
    refine ⟨CodepointSet.ranges_ofRanges rs, fun c => ?_⟩
    rw [CodepointSet.contains_iff_mem]
    exact CodepointSet.mem_ofRanges
  · intro s t
    refine ⟨CodepointSet.ranges_union s t, fun c => ?_⟩
    simp only [CodepointSet.contains_iff_mem]
    exact CodepointSet.mem_union

end SchemaRegex

import SchemaRegex.CodepointSet.Basic

/-!
# Sets built by operations

An expression of sets says in which order constructors and operations are applied. Whatever the
expression, the set that it builds has its ranges in canonical form and the members that the
expression denotes. So two expressions build equal sets exactly if they denote the same codepoints
(`built_set_is_canonical`).
-/

namespace SchemaRegex

inductive SetExpression where
  | nothing
  | everything
  | wildcard
  | single (c : Nat)
  | bounds (first last : Nat)
  | ranges (rs : List Range)
  | union (a b : SetExpression)
  | difference (a b : SetExpression)
  | complement (a : SetExpression)

namespace SetExpression

def build : SetExpression → Except RangeOrderError CodepointSet
  | nothing => .ok .empty
  | everything => .ok .full
  | wildcard => .ok .wildcard
  | single c => .ok (.singleton c)
  | bounds first last => CodepointSet.ofBounds first last
  | ranges rs => .ok (.ofRanges rs)
  | union a b => do return (← a.build).union (← b.build)
  | difference a b => do return (← a.build).diff (← b.build)
  | complement a => do return (← a.build).complement

def Denotes : SetExpression → Nat → Prop
  | nothing, _ => False
  | everything, c => c ≤ lastCodepoint
  | wildcard, c => c ≤ lastCodepoint ∧ c ≠ 0x0A ∧ c ≠ 0x0D
  | single d, c => c = d
  | bounds first last, c => first ≤ c ∧ c ≤ last
  | ranges rs, c => c ≤ lastCodepoint ∧ ∃ r ∈ rs, r.lo ≤ c ∧ c ≤ r.hi
  | union a b, c => a.Denotes c ∨ b.Denotes c
  | difference a b, c => a.Denotes c ∧ ¬ b.Denotes c
  | complement a, c => c ≤ lastCodepoint ∧ ¬ a.Denotes c

/-- Single codepoints and bounds are taken from the codespace. A list of ranges may go beyond. -/
def InCodespace : SetExpression → Prop
  | single c => c ≤ lastCodepoint
  | bounds first last => first ≤ lastCodepoint ∧ last ≤ lastCodepoint
  | union a b | difference a b => a.InCodespace ∧ b.InCodespace
  | complement a => a.InCodespace
  | nothing | everything | wildcard | ranges _ => True

private theorem build_bounds {first last : Nat} {s : CodepointSet}
    (built : (bounds first last).build = .ok s) : s = .ofRanges [⟨first, last⟩] := by
  simp only [build, CodepointSet.ofBounds] at built
  split at built
  · cases built
  · injection built with same
    rw [← same, CodepointSet.ofRange_eq]

private theorem bind_eq_ok {α β : Type} {x : Except RangeOrderError α} {f : α → Except RangeOrderError β}
    {b : β} (ok : (x >>= f) = .ok b) : ∃ a, x = .ok a ∧ f a = .ok b := by
  cases x with
  | error e => cases ok
  | ok a => exact ⟨a, rfl, ok⟩

private theorem mem_build {e : SetExpression} {s : CodepointSet} (inside : e.InCodespace)
    (built : e.build = .ok s) (c : Nat) : c ∈ s ↔ e.Denotes c := by
  induction e generalizing s with
  | nothing =>
    cases built
    simp [Denotes]
  | everything =>
    cases built
    exact CodepointSet.mem_full
  | wildcard =>
    cases built
    exact CodepointSet.mem_wildcard
  | single d =>
    cases built
    have bound : d ≤ lastCodepoint := inside
    rw [CodepointSet.mem_singleton, Denotes]
    omega
  | bounds first last =>
    rw [build_bounds built, CodepointSet.mem_ofRanges]
    have bound : last ≤ lastCodepoint := inside.2
    simp only [List.mem_singleton, exists_eq_left, Denotes]
    omega
  | ranges rs =>
    cases built
    exact CodepointSet.mem_ofRanges
  | union a b left right =>
    obtain ⟨x, first, built⟩ := bind_eq_ok built
    obtain ⟨y, second, built⟩ := bind_eq_ok built
    cases built
    rw [CodepointSet.mem_union, left inside.1 first, right inside.2 second, Denotes]
  | difference a b left right =>
    obtain ⟨x, first, built⟩ := bind_eq_ok built
    obtain ⟨y, second, built⟩ := bind_eq_ok built
    cases built
    rw [CodepointSet.mem_diff, left inside.1 first, right inside.2 second, Denotes]
  | complement a ih =>
    obtain ⟨x, first, built⟩ := bind_eq_ok built
    cases built
    rw [CodepointSet.mem_complement, ih inside first, Denotes]

end SetExpression

namespace CodepointSet

private theorem ranges_apart (s : CodepointSet) {i j : Nat} (less : i < j) (bound : j < s.ranges.size) :
    (s.ranges[i]).hi + 1 < (s.ranges[j]).lo := by
  have before := List.pairwise_iff_getElem.mp s.canonical.ordered i j
    (by simpa using Nat.lt_trans less bound) (by simpa using bound) less
  simpa only [Range.Before, Array.getElem_toList] using before

theorem contains_eq_false_of_lt (s : CodepointSet) {c : Nat} (beyond : lastCodepoint < c) :
    s.contains c = false := by
  refine Bool.eq_false_iff.mpr fun found => ?_
  have bound := le_lastCodepoint_of_mem (contains_iff_mem.mp found)
  omega

private theorem eq_iff_contains {s t : CodepointSet} : s = t ↔ ∀ c, s.contains c = t.contains c := by
  constructor
  · intro same c
    rw [same]
  · intro same
    refine ext_mem fun c => ?_
    rw [← contains_iff_mem, ← contains_iff_mem, same]

end CodepointSet

/-- The ranges of a built set are nonempty, lie in the codespace, ascend and leave gaps. The look-up
finds exactly the codepoints in one of them, which are those that the expression denotes and never a
mark. Equality of built sets is equality of members. -/
theorem built_set_is_canonical {e : SetExpression} {s : CodepointSet} (inside : e.InCodespace)
    (built : e.build = .ok s) :
    (∀ r ∈ s.ranges, r.lo ≤ r.hi ∧ r.hi ≤ lastCodepoint) ∧
      (∀ (i j : Nat) (_ : i < j) (_ : j < s.ranges.size), (s.ranges[i]).hi + 1 < (s.ranges[j]).lo) ∧
      (∀ c, s.contains c = true ↔ ∃ r ∈ s.ranges, r.lo ≤ c ∧ c ≤ r.hi) ∧
      (∀ c, s.contains c = true ↔ e.Denotes c) ∧
      s.contains startMark = false ∧ s.contains endMark = false ∧
      ∀ (f : SetExpression) (t : CodepointSet), f.InCodespace → f.build = .ok t →
        (s = t ↔ ∀ c, s.contains c = t.contains c) ∧ (s = t ↔ ∀ c, e.Denotes c ↔ f.Denotes c) := by
  have members (c : Nat) := SetExpression.mem_build inside built c
  refine ⟨?_, ?_, ?_, ?_, ?_, ?_, ?_⟩
  · intro r member
    exact s.canonical.valid r (Array.mem_toList_iff.mpr member)
  · intro i j less bound
    exact s.ranges_apart less bound
  · intro c
    exact CodepointSet.contains_iff_mem.trans CodepointSet.mem_iff
  · intro c
    exact CodepointSet.contains_iff_mem.trans (members c)
  · exact s.contains_eq_false_of_lt (by simp [startMark])
  · exact s.contains_eq_false_of_lt (by simp [endMark])
  · intro f t insideF builtF
    refine ⟨CodepointSet.eq_iff_contains, ?_⟩
    constructor
    · intro same c
      rw [← members, same, SetExpression.mem_build insideF builtF]
    · intro same
      refine CodepointSet.ext_mem fun c => ?_
      rw [members, same, SetExpression.mem_build insideF builtF]

/-- Two ranges that touch become one: the set equals that of overlapping ranges in the other order,
less what lies beyond the letters. -/
theorem built_set_is_canonical_letters :
    let e : SetExpression := .union (.bounds 0x61 0x6D) (.bounds 0x6E 0x7A)
    let f : SetExpression :=
      .difference (.ranges [⟨0x70, 0x110005⟩, ⟨0x61, 0x75⟩, ⟨9, 4⟩]) (.complement (.bounds 0x61 0x7A))
    e.InCodespace ∧ f.InCodespace ∧ ∃ s t, e.build = .ok s ∧ f.build = .ok t ∧ s = t ∧
      s.contains startMark = false := by
  intro e f
  have insideE : e.InCodespace := by simp [e, SetExpression.InCodespace, lastCodepoint]
  have insideF : f.InCodespace := by simp [f, SetExpression.InCodespace, lastCodepoint]
  obtain ⟨_, _, _, _, noMark, _, equal⟩ := built_set_is_canonical insideE rfl
  refine ⟨insideE, insideF, _, _, rfl, rfl, ?_, noMark⟩
  refine (equal f _ insideF rfl).2.mpr fun c => ?_
  simp only [e, f, SetExpression.Denotes, lastCodepoint, List.mem_cons, List.not_mem_nil, or_false,
    exists_eq_or_imp, exists_eq_left]
  omega

end SchemaRegex

import SchemaRegex.CodepointSet.Basic

/-!
# Differences and complements in words of 32 bits

The loops that compute a difference and a complement, with indices into the ranges and an arithmetic
that fails where a result is no word of 32 bits. Nothing fails in them, and they give the difference
and the complement, so these never leave the words (`difference_and_complement_within_words`).
-/

namespace SchemaRegex

namespace Ranges

def lastWord : Nat := 0xFFFFFFFF

def addWord? (a b : Nat) : Option Nat := if a + b ≤ lastWord then some (a + b) else none

def subWord? (a b : Nat) : Option Nat := if b ≤ a then some (a - b) else none

def pushBefore? (done : Array Range) (low next : Nat) : Option (Array Range) :=
  if low < next then do return done.push ⟨low, ← subWord? next 1⟩ else some done

def advance (es : Array Range) (low b : Nat) : Nat :=
  if inside : b < es.size then
    if es[b].hi < low then advance es low (b + 1) else b
  else b
termination_by es.size - b

def carve? (es : Array Range) (low high i : Nat) (done : Array Range) : Option (Array Range) :=
  if inside : i < es.size then
    if es[i].lo ≤ high then do
      let done ← pushBefore? done low es[i].lo
      if high ≤ es[i].hi then return done
      else carve? es (← addWord? es[i].hi 1) high (i + 1) done
    else some (done.push ⟨low, high⟩)
  else some (done.push ⟨low, high⟩)
termination_by es.size - i

/-- Goes through some ranges and those to take away from them. The index into the latter is kept from
one range to the next. -/
def sweep? (es : Array Range) : List Range → Nat → Array Range → Option (Array Range)
  | [], _, done => some done
  | r :: rs, b, done => do
    let b := advance es r.lo b
    sweep? es rs b (← carve? es r.lo r.hi b done)

def fill? : List Range → Nat → Array Range → Option (Array Range)
  | [], next, done => some (if next ≤ lastCodepoint then done.push ⟨next, lastCodepoint⟩ else done)
  | r :: rs, next, done => do
    let done ← pushBefore? done next r.lo
    fill? rs (← addWord? r.hi 1) done

variable {es : Array Range}

private theorem addWord?_last {n : Nat} (word : n ≤ lastCodepoint) : addWord? n 1 = some (n + 1) := by
  apply if_pos
  unfold lastCodepoint at word
  unfold lastWord
  omega

private theorem pushBefore?_eq (done : Array Range) (low next : Nat) :
    pushBefore? done low next =
      some (done ++ (if low < next then [⟨low, next - 1⟩] else []).toArray) := by
  unfold pushBefore?
  split
  · rename_i room
    have some : subWord? next 1 = some (next - 1) := if_pos (by omega)
    rw [some]
    simp
  · simp

private theorem drop_advance (es : Array Range) (low b : Nat) :
    es.toList.drop (advance es low b) = (es.toList.drop b).dropWhile fun e => e.hi < low := by
  rw [advance]
  by_cases inside : b < es.size
  · have first : es.toList.drop b = es[b] :: es.toList.drop (b + 1) := List.drop_eq_getElem_cons inside
    rw [dif_pos inside, first, List.dropWhile_cons]
    simp only [decide_eq_true_eq]
    split
    · exact drop_advance es low (b + 1)
    · exact first
  · have none : es.toList.drop b = [] := List.drop_eq_nil_iff.mpr (Nat.le_of_not_lt inside)
    rw [dif_neg inside, none]
    rfl
termination_by es.size - b

/-- The inner loop cuts the ranges left off the given one, and no bound leaves the words. -/
theorem carve?_eq (words : ∀ e ∈ es, e.hi ≤ lastCodepoint) (low high i : Nat) (done : Array Range) :
    carve? es low high i done =
      some (done ++ (cut ⟨low, high⟩ (es.toList.drop i)).toArray) := by
  rw [carve?]
  by_cases inside : i < es.size
  · have first : es.toList.drop i = es[i] :: es.toList.drop (i + 1) := List.drop_eq_getElem_cons inside
    rw [dif_pos inside, first, cut]
    by_cases beyond : high < es[i].lo
    · rw [if_neg (Nat.not_le.mpr beyond), if_pos beyond, Array.push_eq_append]
    · have next := addWord?_last (words es[i] (Array.getElem_mem inside))
      have rest := carve?_eq words (es[i].hi + 1) high (i + 1)
      rw [if_pos (Nat.le_of_not_lt beyond), if_neg beyond, pushBefore?_eq, next]
      simp only [Option.bind_eq_bind, Option.bind_some, rest]
      split <;> split <;> simp
  · have none : es.toList.drop i = [] := List.drop_eq_nil_iff.mpr (Nat.le_of_not_lt inside)
    rw [dif_neg inside, none, cut, Array.push_eq_append]
termination_by es.size - i

private theorem sweep?_eq (words : ∀ e ∈ es, e.hi ≤ lastCodepoint) (rs : List Range) (b : Nat)
    (done : Array Range) :
    sweep? es rs b done = some (done ++ (subtract rs (es.toList.drop b)).toArray) := by
  induction rs generalizing b done with
  | nil => simp [sweep?, subtract]
  | cons r rs ih =>
    have carved := carve?_eq words r.lo r.hi (advance es r.lo b) done
    rw [drop_advance] at carved
    simp only [sweep?, carved, Option.bind_eq_bind, Option.bind_some, ih, drop_advance, subtract]
    simp

private theorem fill?_eq {rs : List Range} (words : ∀ r ∈ rs, r.hi ≤ lastCodepoint) (next : Nat)
    (done : Array Range) : fill? rs next done = some (done ++ (gaps next rs).toArray) := by
  induction rs generalizing next done with
  | nil =>
    rw [fill?, gaps]
    split <;> simp
  | cons r rs ih =>
    have above := addWord?_last (words r (by simp))
    have others := ih fun s member => words s (by simp [member])
    simp only [fill?, pushBefore?_eq, above, Option.bind_eq_bind, Option.bind_some, others, gaps]
    split <;> simp

private theorem subtract_nil (rs : List Range) : subtract rs [] = rs := by
  induction rs with
  | nil => rfl
  | cons r rs ih =>
    rw [subtract, List.dropWhile_nil, ih]
    rfl

end Ranges

namespace CodepointSet

def sweep? (s t : CodepointSet) : Option (Array Range) :=
  if s.isEmpty || t.isEmpty then some s.ranges else Ranges.sweep? t.ranges s.ranges.toList 0 #[]

def fill? (s : CodepointSet) : Option (Array Range) := Ranges.fill? s.ranges.toList 0 #[]

private theorem within_words (s : CodepointSet) : ∀ r ∈ s.ranges, r.hi ≤ lastCodepoint := by
  intro r member
  exact (s.canonical.valid r (Array.mem_toList_iff.mpr member)).2

private theorem sweep?_eq (s t : CodepointSet) : s.sweep? t = some (s.diff t).ranges := by
  change _ = some (Ranges.subtract s.ranges.toList t.ranges.toList).toArray
  unfold sweep?
  split
  · rename_i empty
    rcases Bool.or_eq_true_iff.mp empty with none | none
    · rw [eq_empty_of_isEmpty none]
      rfl
    · have nil : t.ranges.toList = [] := by simpa [isEmpty] using none
      rw [nil, Ranges.subtract_nil]
  · rw [Ranges.sweep?_eq t.within_words]
    simp

private theorem fill?_eq (s : CodepointSet) : s.fill? = some s.complement.ranges := by
  unfold fill?
  rw [Ranges.fill?_eq fun r member => s.within_words r (Array.mem_toList_iff.mp member)]
  simp [complement, ofCanonical]

end CodepointSet

/-- Difference and complement have the members that their names say. Computed in words of 32 bits,
they meet no result below the least or beyond the greatest word. -/
theorem difference_and_complement_within_words (s t : CodepointSet) :
    s.sweep? t = some (s.diff t).ranges ∧ s.fill? = some s.complement.ranges ∧
      ∀ c, ((s.diff t).contains c = true ↔ s.contains c = true ∧ ¬ t.contains c = true) ∧
        (s.complement.contains c = true ↔ c ≤ lastCodepoint ∧ ¬ s.contains c = true) := by
  refine ⟨s.sweep?_eq t, s.fill?_eq, ?_⟩
  intro c
  simp only [CodepointSet.contains_iff_mem]
  exact ⟨CodepointSet.mem_diff, CodepointSet.mem_complement⟩

/-- Only the end of the codespace keeps the bounds within the words. -/
example : Ranges.fill? [⟨0, Ranges.lastWord⟩] 0 #[] = none := rfl

end SchemaRegex

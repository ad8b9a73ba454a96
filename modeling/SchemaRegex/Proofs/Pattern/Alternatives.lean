import SchemaRegex.Proofs.Pattern.Failing

/-!
# Alternatives

Where all alternatives reject a text, each because it expected some tokens, the choice between them rejects
it at the deepest of their places, and expects there what those do that came so far, in their order. Merging
such failures is associative, so alternatives may as well be grouped (`choice_expects_deepest`).
-/

namespace SchemaRegex.Pattern

structure Expectation where
  rest : Unread
  tokens : List String

namespace Expectation

def failure (e : Expectation) : Failure := ⟨e.rest, .expected e.tokens⟩

def merge (d e : Expectation) : Expectation :=
  if e.rest.size < d.rest.size then e
  else if d.rest.size < e.rest.size then d
  else ⟨d.rest, d.tokens ++ e.tokens⟩

private theorem failure_merge (d e : Expectation) : d.failure.merge e.failure = (d.merge e).failure := by
  unfold merge
  split
  · rename_i deeper
    exact if_pos deeper
  split
  · rename_i notDeeper shallower
    exact (if_neg notDeeper).trans (if_pos shallower)
  · rename_i notDeeper notShallower
    exact (if_neg notDeeper).trans (if_neg notShallower)

variable {d e : Expectation} {es : List Expectation}

private theorem merge_of_deeper (deeper : e.rest.size < d.rest.size) : d.merge e = e := if_pos deeper

private theorem merge_of_shallower (shallower : d.rest.size < e.rest.size) : d.merge e = d := by
  rw [merge, if_neg (Nat.lt_asymm shallower), if_pos shallower]

private theorem merge_of_level (level : d.rest.size = e.rest.size) :
    d.merge e = ⟨d.rest, d.tokens ++ e.tokens⟩ := by
  rw [merge, if_neg (level ▸ Nat.lt_irrefl _), if_neg (level ▸ Nat.lt_irrefl _)]

private theorem size_merge (d e : Expectation) : (d.merge e).rest.size = min d.rest.size e.rest.size := by
  have merged := Failure.size_merge d.failure e.failure
  rw [failure_merge] at merged
  exact merged

private theorem merge_assoc (d e f : Expectation) : (d.merge e).merge f = d.merge (e.merge f) := by
  have first := size_merge d e
  have last := size_merge e f
  -- If `e` is the deeper one, `d` counts on neither side, and if `d` is, `e` does not.
  obtain deeper | level | shallower := Nat.lt_trichotomy e.rest.size d.rest.size
  · rw [merge_of_deeper deeper, merge_of_deeper (e := e.merge f) (by omega)]
  · obtain further | also | nearer := Nat.lt_trichotomy f.rest.size e.rest.size
    · rw [merge_of_deeper (d := d.merge e) (by omega), merge_of_deeper further,
        merge_of_deeper (by omega)]
    · rw [merge_of_level (d := d.merge e) (by omega), merge_of_level (e := e.merge f) (by omega),
        merge_of_level level.symm, merge_of_level also.symm, List.append_assoc]
    · rw [merge_of_shallower (d := d.merge e) (by omega), merge_of_shallower nearer]
  · by_cases further : f.rest.size < e.rest.size
    · rw [merge_of_shallower shallower, merge_of_deeper further]
    · rw [merge_of_shallower shallower, merge_of_shallower (e := f) (by omega),
        merge_of_shallower (e := e.merge f) (by omega)]

def tokensAt (size : Nat) (es : List Expectation) : List String :=
  (es.filter (·.rest.size = size)).flatMap (·.tokens)

private theorem tokensAt_append (size : Nat) (es fs : List Expectation) :
    tokensAt size (es ++ fs) = tokensAt size es ++ tokensAt size fs := by
  simp [tokensAt]

private theorem tokensAt_of_lt {size : Nat} (deeper : ∀ e ∈ es, size < e.rest.size) :
    tokensAt size es = [] := by
  have none : es.filter (·.rest.size = size) = [] := by
    rw [List.filter_eq_nil_iff]
    intro e member
    simpa using Nat.ne_of_gt (deeper e member)
  rw [tokensAt, none, List.flatMap_nil]

private theorem tokensAt_own (e : Expectation) : tokensAt e.rest.size [e] = e.tokens := by
  simp [tokensAt]

/-- The expectation stands at the deepest place of some others, with all that these expect there. -/
structure Gathers (es : List Expectation) (e : Expectation) : Prop where
  place : ∃ d ∈ es, e.rest = d.rest
  deepest : ∀ d ∈ es, e.rest.size ≤ d.rest.size
  tokens : e.tokens = tokensAt e.rest.size es

private theorem gathers_single (e : Expectation) : Gathers [e] e where
  place := ⟨e, List.mem_singleton_self e, rfl⟩
  deepest := by
    intro d member
    cases List.mem_singleton.mp member
    exact Nat.le_refl _
  tokens := (tokensAt_own e).symm

private theorem Gathers.merge (gathers : Gathers es d) (e : Expectation) :
    Gathers (es ++ [e]) (d.merge e) where
  place := by
    obtain ⟨c, member, same⟩ := gathers.place
    obtain deeper | level | shallower := Nat.lt_trichotomy e.rest.size d.rest.size
    · rw [merge_of_deeper deeper]
      exact ⟨e, List.mem_append_right es (List.mem_singleton_self e), rfl⟩
    · rw [merge_of_level level.symm]
      exact ⟨c, List.mem_append_left [e] member, same⟩
    · rw [merge_of_shallower shallower]
      exact ⟨c, List.mem_append_left [e] member, same⟩
  deepest := by
    intro c member
    rw [size_merge]
    obtain old | new := List.mem_append.mp member
    · exact Nat.le_trans (Nat.min_le_left _ _) (gathers.deepest c old)
    · rw [List.mem_singleton.mp new]
      exact Nat.min_le_right _ _
  tokens := by
    obtain deeper | level | shallower := Nat.lt_trichotomy e.rest.size d.rest.size
    · have above : ∀ c ∈ es, e.rest.size < c.rest.size :=
        fun c member => Nat.lt_of_lt_of_le deeper (gathers.deepest c member)
      rw [merge_of_deeper deeper, tokensAt_append, tokensAt_own, tokensAt_of_lt above, List.nil_append]
    · rw [merge_of_level level.symm, tokensAt_append, ← gathers.tokens, ← level, tokensAt_own]
    · have above : ∀ c ∈ [e], d.rest.size < c.rest.size := List.forall_mem_singleton.mpr shallower
      rw [merge_of_shallower shallower, tokensAt_append, ← gathers.tokens, tokensAt_of_lt above,
        List.append_nil]

private theorem Gathers.foldl (gathers : Gathers es e) (fs : List Expectation) :
    Gathers (es ++ fs) (fs.foldl Expectation.merge e) := by
  induction fs generalizing es e with
  | nil => rwa [List.append_nil]
  | cons f fs ih =>
    rw [← List.singleton_append, ← List.append_assoc]
    exact ih (gathers.merge f)

end Expectation

namespace Attempt

variable {α : Type} {a b c : Attempt α}

def otherwise (a b : Attempt α) : Attempt α :=
  match a.outcome with
  | .rejected f =>
    match b.outcome with
    | .rejected g => ⟨.rejected (f.merge g), a.trail ++ b.trail⟩
    | outcome => ⟨outcome, a.trail ++ b.trail⟩
  | outcome => ⟨outcome, a.trail⟩

/-- If the text is rejected, then because some tokens were expected. A broken rule between two such
rejections at one place would hide the second or not, as they are grouped. -/
private def Expects (a : Attempt α) : Prop := ∀ f, a.outcome = .rejected f → ∃ e : Expectation, f = e.failure

private theorem otherwise_rejected {d e : Expectation} (first : a.outcome = .rejected d.failure)
    (second : b.outcome = .rejected e.failure) :
    (a.otherwise b).outcome = .rejected (d.merge e).failure := by
  simp only [otherwise, first, second, Expectation.failure_merge]

private theorem Expects.otherwise (first : a.Expects) (second : b.Expects) : (a.otherwise b).Expects := by
  intro f rejected
  obtain ⟨outcome, trail⟩ := a
  obtain ⟨other, further⟩ := b
  cases outcome with
  | accepted value rest => cases rejected
  | aborted g => cases rejected
  | rejected g =>
    cases other with
    | accepted value rest => cases rejected
    | aborted h => cases rejected
    | rejected h =>
      obtain ⟨d, same⟩ := first g rfl
      obtain ⟨e, also⟩ := second h rfl
      cases rejected
      exact ⟨d.merge e, by rw [same, also, Expectation.failure_merge]⟩

private theorem otherwise_assoc (first : a.Expects) (second : b.Expects) (third : c.Expects) :
    (a.otherwise b).otherwise c = a.otherwise (b.otherwise c) := by
  obtain ⟨outcome, trail⟩ := a
  obtain ⟨other, further⟩ := b
  obtain ⟨last, furthest⟩ := c
  -- Only where all three reject the text is there something to merge twice.
  cases outcome with
  | accepted value rest => rfl
  | aborted f => rfl
  | rejected f =>
    cases other with
    | accepted value rest => rfl
    | aborted g => rfl
    | rejected g =>
      cases last with
      | accepted value rest => exact congrArg (Attempt.mk _) (List.append_assoc trail further furthest)
      | aborted h => exact congrArg (Attempt.mk _) (List.append_assoc trail further furthest)
      | rejected h =>
        obtain ⟨d, same⟩ := first f rfl
        obtain ⟨e, also⟩ := second g rfl
        obtain ⟨k, too⟩ := third h rfl
        subst same also too
        simp only [otherwise, Expectation.failure_merge, Expectation.merge_assoc, List.append_assoc]

private theorem Expects.foldl {as : List (Attempt α)} (first : a.Expects) (others : ∀ b ∈ as, b.Expects) :
    (as.foldl Attempt.otherwise a).Expects := by
  induction as generalizing a with
  | nil => exact first
  | cons b as ih =>
    obtain ⟨second, others⟩ := List.forall_mem_cons.mp others
    exact ih (first.otherwise second) others

private theorem foldl_otherwise {as : List (Attempt α)} (first : a.Expects) (second : b.Expects)
    (others : ∀ c ∈ as, c.Expects) :
    as.foldl otherwise (a.otherwise b) = a.otherwise (as.foldl otherwise b) := by
  induction as generalizing b with
  | nil => rfl
  | cons c as ih =>
    obtain ⟨third, others⟩ := List.forall_mem_cons.mp others
    rw [List.foldl_cons, List.foldl_cons, otherwise_assoc first second third,
      ih (second.otherwise third) others]

private theorem foldl_rejected {as : List (Attempt α)} {e : Expectation} {es : List Expectation}
    (first : a.outcome = .rejected e.failure)
    (others : as.map Attempt.outcome = es.map fun e => .rejected e.failure) :
    (as.foldl otherwise a).outcome = .rejected (es.foldl Expectation.merge e).failure := by
  induction as generalizing a e es with
  | nil =>
    cases es with
    | nil => exact first
    | cons d es => cases others
  | cons b as ih =>
    cases es with
    | nil => cases others
    | cons d es =>
      obtain ⟨second, others⟩ := List.cons.inj others
      exact ih (e := e.merge d) (otherwise_rejected first second) others

end Attempt

namespace Reader

variable {α : Type}

private theorem firstOf_apply (p : Reader α) (others : List (Reader α)) (input : Unread) :
    firstOf p others input = (others.map (· input)).foldl Attempt.otherwise (p input) := by
  induction others generalizing p with
  | nil => rfl
  | cons q others ih =>
    have step : p.orElse q input = (p input).otherwise (q input) := rfl
    rw [List.map_cons, List.foldl_cons, ← step]
    exact ih (p.orElse q)

end Reader

inductive Alternatives (α : Type) where
  | one (p : Reader α)
  | among (first : Alternatives α) (others : List (Alternatives α))

namespace Alternatives

variable {α : Type} {input : Unread}

mutual

def reader : Alternatives α → Reader α
  | one p => p
  | among first others => Reader.firstOf first.reader (readers others)

def readers : List (Alternatives α) → List (Reader α)
  | [] => []
  | t :: ts => t.reader :: readers ts

end

mutual

def members : Alternatives α → List (Reader α)
  | one p => [p]
  | among first others => first.members ++ membersOfAll others

def membersOfAll : List (Alternatives α) → List (Reader α)
  | [] => []
  | t :: ts => t.members ++ membersOfAll ts

end

private def Flattens (input : Unread) (t : Alternatives α) : Prop :=
  ∃ p others, t.members = p :: others ∧ t.reader input = Reader.firstOf p others input

private theorem foldl_readers {ts : List (Alternatives α)} (each : ∀ t ∈ ts, t.Flattens input)
    (given : ∀ p ∈ membersOfAll ts, (p input).Expects) {a : Attempt α} (before : a.Expects) :
    ((readers ts).map (· input)).foldl Attempt.otherwise a =
      ((membersOfAll ts).map (· input)).foldl Attempt.otherwise a := by
  induction ts generalizing a with
  | nil => rfl
  | cons t ts ih =>
    obtain ⟨flattens, each⟩ := List.forall_mem_cons.mp each
    obtain ⟨p, ps, same, alike⟩ := flattens
    obtain ⟨own, rest⟩ := List.forall_mem_append.mp given
    rw [same] at own
    obtain ⟨first, others⟩ := List.forall_mem_cons.mp own
    have further : ∀ b ∈ ps.map (· input), b.Expects := List.forall_mem_map.mpr others
    rw [readers, List.map_cons, List.foldl_cons, alike, Reader.firstOf_apply,
      ← Attempt.foldl_otherwise before first further,
      ih each rest ((before.otherwise first).foldl further), membersOfAll, same, List.map_append,
      List.foldl_append, List.map_cons, List.foldl_cons]

private theorem mem_membersOfAll {ts : List (Alternatives α)} {t : Alternatives α} (among : t ∈ ts)
    {p : Reader α} (member : p ∈ t.members) : p ∈ membersOfAll ts := by
  induction among with
  | head ts => exact List.mem_append_left _ member
  | tail t _ ih => exact List.mem_append_right _ ih

/-- Groups make no difference. -/
theorem flattens (t : Alternatives α) (given : ∀ p ∈ t.members, (p input).Expects) :
    t.Flattens input := by
  cases t with
  | one p => exact ⟨p, [], rfl, rfl⟩
  | among first others =>
    obtain ⟨own, rest⟩ := List.forall_mem_append.mp given
    obtain ⟨p, ps, same, alike⟩ := first.flattens own
    have each : ∀ t ∈ others, t.Flattens input :=
      fun t inside => t.flattens fun q member => rest q (mem_membersOfAll inside member)
    rw [same] at own
    obtain ⟨entry, further⟩ := List.forall_mem_cons.mp own
    refine ⟨p, ps ++ membersOfAll others, by rw [members, same, List.cons_append], ?_⟩
    rw [reader, Reader.firstOf_apply, alike, Reader.firstOf_apply,
      foldl_readers each rest (entry.foldl (List.forall_mem_map.mpr further)), Reader.firstOf_apply,
      List.map_append, List.foldl_append]
termination_by sizeOf t

end Alternatives

/-- If all alternatives reject the text and expected some tokens, so does the choice: at the deepest of
their places, the tokens expected there, in the order of the alternatives. Grouping the alternatives changes
nothing, since merging such failures is associative. -/
theorem choice_expects_deepest {α : Type} (p : Reader α) (others : List (Reader α)) (input : Unread)
    (es : List Expectation)
    (rejected : (p :: others).map (fun q => (q input).outcome) = es.map fun e => .rejected e.failure) :
    (∃ e : Expectation, (Reader.firstOf p others input).outcome = .rejected e.failure ∧ e.Gathers es) ∧
      (∀ t : Alternatives α, t.members = p :: others →
        t.reader input = Reader.firstOf p others input) ∧
        ∀ d e f : Expectation, (d.failure.merge e.failure).merge f.failure =
          d.failure.merge (e.failure.merge f.failure) := by
  refine ⟨?_, ?_, ?_⟩
  · cases es with
    | nil => cases rejected
    | cons e es =>
      obtain ⟨first, rest⟩ := List.cons.inj rejected
      refine ⟨es.foldl Expectation.merge e, ?_, (Expectation.gathers_single e).foldl es⟩
      rw [Reader.firstOf_apply]
      refine Attempt.foldl_rejected first ?_
      rw [List.map_map]
      exact rest
  · intro t same
    have expects : ∀ q ∈ t.members, (q input).Expects := by
      intro q member f failed
      rw [same] at member
      have listed : (q input).outcome ∈ es.map fun e => .rejected e.failure :=
        rejected ▸ List.mem_map_of_mem member
      obtain ⟨e, _, own⟩ := List.mem_map.mp listed
      rw [failed] at own
      cases own
      exact ⟨e, rfl⟩
    obtain ⟨q, qs, members, alike⟩ := t.flattens expects
    cases members.symm.trans same
    exact alike
  · intro d e f
    simp only [Expectation.failure_merge, Expectation.merge_assoc]

def behindA (letter : String) : Reader Unit := (Reader.token "a").skipThen (Reader.token letter)

def fourTexts : Alternatives Unit :=
  .among (.one (behindA "b")) [.among (.one (.token "x")) [.one (behindA "d")], .one (.token "y")]

def missedInAC : List Expectation :=
  [⟨.ofList ['c'], ["b"]⟩, ⟨.ofList ['a', 'c'], ["x"]⟩, ⟨.ofList ['c'], ["d"]⟩,
    ⟨.ofList ['a', 'c'], ["y"]⟩]

theorem choice_expects_deepest_behindA :
    fourTexts.members.map (fun q => (q (.ofList ['a', 'c'])).outcome) =
        missedInAC.map (fun e => .rejected e.failure) ∧
      ∃ e : Expectation, (fourTexts.reader (.ofList ['a', 'c'])).outcome = .rejected e.failure ∧
        e.rest.size = 1 ∧ e.tokens = ["b", "d"] := by
  have rejected : fourTexts.members.map (fun q => (q (.ofList ['a', 'c'])).outcome) =
      missedInAC.map (fun e => .rejected e.failure) := by decide
  obtain ⟨⟨e, failed, gathers⟩, grouped, _⟩ := choice_expects_deepest (behindA "b")
    [.token "x", behindA "d", .token "y"] (.ofList ['a', 'c']) missedInAC rejected
  have size : e.rest.size = 1 := by
    obtain ⟨d, member, same⟩ := gathers.place
    have inside : ∀ d ∈ missedInAC, 1 ≤ d.rest.size := by decide
    exact Nat.le_antisymm (gathers.deepest _ List.mem_cons_self) (same ▸ inside d member)
  refine ⟨rejected, e, ?_, size, ?_⟩
  · rw [grouped fourTexts rfl]
    exact failed
  · rw [gathers.tokens, size]
    rfl

end SchemaRegex.Pattern

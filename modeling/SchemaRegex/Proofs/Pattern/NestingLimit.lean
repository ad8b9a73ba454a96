import Mathlib.Data.List.Forall2
import SchemaRegex.Proofs.Pattern.ErrorPlaces

/-!
# The limit for brackets inside brackets

A reader with a lower limit does what one with a higher limit does, until it comes to a bracket that is
one too many; then it aborts, and nothing else is tried. So a higher limit changes no tree and no other
error (`nesting_limit_only_refuses`).
-/

namespace SchemaRegex.Pattern

private def Attempt.TooDeep {α : Type} (n : Nat) (x : Attempt α) : Prop :=
  ∃ rest, x.outcome = .aborted ⟨rest, .violation (.nestingTooDeep n)⟩

namespace Reader

variable {α β : Type} {n : Nat}

private def Narrows (n : Nat) (p q : Reader α) : Prop := ∀ input, p input = q input ∨ (p input).TooDeep n

namespace Narrows

private theorem same {p q : Reader α} (same : p = q) : Narrows n p q := fun _ => .inl (by rw [same])

private theorem andThen {p q : Reader α} {f g : α → Reader β} (first : Narrows n p q)
    (second : ∀ a, Narrows n (f a) (g a)) : Narrows n (p.andThen f) (q.andThen g) := by
  intro input
  obtain same | ⟨rest, aborted⟩ := first input
  · cases outcome : (q input).outcome with
    | accepted a rest =>
      obtain more | ⟨last, aborted⟩ := second a rest
      · exact .inl (by simp only [Reader.andThen, same, outcome, more])
      · exact .inr ⟨last, by simp only [Reader.andThen, same, outcome, aborted]⟩
    | rejected f => exact .inl (by simp only [Reader.andThen, same, outcome])
    | aborted f => exact .inl (by simp only [Reader.andThen, same, outcome])
  · exact .inr ⟨rest, by simp only [Reader.andThen, aborted]⟩

private theorem map {p q : Reader α} (narrows : Narrows n p q) (f : α → β) :
    Narrows n (p.map f) (q.map f) :=
  narrows.andThen fun _ => .same rfl

private theorem pair {p q : Reader α} {p' q' : Reader β} (first : Narrows n p q) (second : Narrows n p' q') :
    Narrows n (p.pair p') (q.pair q') :=
  first.andThen fun _ => second.map _

private theorem skipThen {p q : Reader α} {p' q' : Reader β} (first : Narrows n p q)
    (second : Narrows n p' q') : Narrows n (p.skipThen p') (q.skipThen q') :=
  first.andThen fun _ => second

private theorem thenSkip {p q : Reader α} {p' q' : Reader β} (first : Narrows n p q)
    (second : Narrows n p' q') : Narrows n (p.thenSkip p') (q.thenSkip q') :=
  first.andThen fun _ => second.map _

private theorem orElse {p q p' q' : Reader α} (first : Narrows n p q) (second : Narrows n p' q') :
    Narrows n (p.orElse p') (q.orElse q') := by
  intro input
  obtain same | ⟨rest, aborted⟩ := first input
  · cases outcome : (q input).outcome with
    | accepted a rest => exact .inl (by simp only [Reader.orElse, same, outcome])
    | rejected f =>
      obtain more | ⟨last, aborted⟩ := second input
      · exact .inl (by simp only [Reader.orElse, same, outcome, more])
      · exact .inr ⟨last, by simp only [Reader.orElse, same, outcome, aborted]⟩
    | aborted f => exact .inl (by simp only [Reader.orElse, same, outcome])
  · exact .inr ⟨rest, by simp only [Reader.orElse, aborted]⟩

private theorem firstOf {p q : Reader α} {ps qs : List (Reader α)} (first : Narrows n p q)
    (others : List.Forall₂ (Narrows n) ps qs) : Narrows n (Reader.firstOf p ps) (Reader.firstOf q qs) := by
  induction others generalizing p q with
  | nil => exact first
  | cons second _ ih => exact ih (first.orElse second)

private theorem opt {p q : Reader α} (narrows : Narrows n p q) : Narrows n p.opt q.opt := by
  intro input
  obtain same | ⟨rest, aborted⟩ := narrows input
  · exact .inl (by simp only [Reader.opt, same])
  · exact .inr ⟨rest, by simp only [Reader.opt, aborted]⟩

private theorem cut {p q : Reader α} (narrows : Narrows n p q) (commits : Bool) :
    Narrows n (Reader.cut commits p) (Reader.cut commits q) := by
  intro input
  obtain same | ⟨rest, aborted⟩ := narrows input
  · exact .inl (by simp only [Reader.cut, same])
  · exact .inr ⟨rest, by simp only [Reader.cut, aborted]⟩

private theorem recorded {p q : Reader α} (narrows : Narrows n p q) : Narrows n p.recorded q.recorded := by
  intro input
  obtain same | ⟨rest, aborted⟩ := narrows input
  · exact .inl (by simp only [Reader.recorded, same])
  · exact .inr ⟨rest, by simp only [Reader.recorded, aborted]⟩

private theorem guarded {p q : Reader α} (narrows : Narrows n p q) (enabled : Bool) :
    Narrows n (Reader.guarded enabled p) (Reader.guarded enabled q) := by
  cases enabled with
  | false => exact .same rfl
  | true => exact narrows

private theorem many {p q : Reader α} (narrows : Narrows n p q) :
    Narrows n (Reader.many p) (Reader.many q) := by
  intro input
  induction size : input.size using Nat.strongRecOn generalizing input with
  | ind l ih =>
    unfold Attempt.TooDeep
    rw [Reader.many, Reader.many]
    obtain same | ⟨rest, aborted⟩ := narrows input
    · cases outcome : (q input).outcome with
      | accepted a rest =>
        by_cases shorter : rest.size < input.size
        · obtain more | ⟨last, aborted⟩ := ih rest.size (size ▸ shorter) rest rfl
          · exact .inl (by simp only [same, outcome, shorter, if_true, more])
          · exact .inr ⟨last, by simp only [same, outcome, shorter, if_true, aborted]⟩
        · exact .inl (by simp only [same, outcome, shorter, if_false])
      | rejected f => exact .inl (by simp only [same, outcome])
      | aborted f => exact .inl (by simp only [same, outcome])
    · exact .inr ⟨rest, by simp only [aborted]⟩

private theorem delimited {p q : Reader α} (narrows : Narrows n p q) (commits : Bool)
    (opening closing : String) :
    Narrows n (Reader.delimited commits opening p closing) (Reader.delimited commits opening q closing) :=
  skipThen (.same rfl) ((narrows.thenSkip (.same rfl)).cut commits)

end Narrows

end Reader

open Reader

def limited (d : Dialect) (n : Nat) : Settings := { dialect := d, nestLimit := n }

variable {d : Dialect} {n m : Nat}

/-- Where the limit is reached, an opening bracket is one too many, whatever could be in it. -/
theorem narrows_enclosed {α : Type} {opening closing : String} {p q : Option (Reader α)}
    (inside : ∀ a ∈ p, ∃ b ∈ q, Narrows n a b) :
    Narrows n (enclosed (limited d n) opening p closing) (enclosed (limited d m) opening q closing) := by
  cases p with
  | some a =>
    obtain ⟨b, reader, narrows⟩ := inside a rfl
    cases reader
    exact narrows.delimited true opening closing
  | none =>
    intro input
    cases outcome : (token opening input).outcome with
    | accepted a rest =>
      refine .inr ⟨input, ?_⟩
      simp only [enclosed, resolve, outcome]
      rfl
    | rejected f =>
      refine .inl ?_
      cases q with
      | none => simp only [enclosed, resolve, outcome]
      | some b => simp only [enclosed, resolve, delimited, skipThen, andThen, outcome]
    | aborted f =>
      refine .inl ?_
      cases q with
      | none => simp only [enclosed, resolve, outcome]
      | some b => simp only [enclosed, resolve, delimited, skipThen, andThen, outcome]

/-- Items hold no brackets, so they do not depend on the limit. -/
theorem items_limited (started after : Bool) :
    items (limited d n) started after = items (limited d m) started after := by
  funext input
  induction size : input.size using Nat.strongRecOn generalizing input started after with
  | ind l ih =>
    have first : item (limited d n) after input = item (limited d m) after input := rfl
    rw [items, items]
    cases outcome : (item (limited d m) after input).outcome with
    | accepted value rest =>
      by_cases shorter : rest.size < input.size
      · have others := ih rest.size (size ▸ shorter) true value.2 rest rfl
        simp only [first, outcome, shorter, if_true, others]
      · simp only [first, outcome, shorter, if_false]
    | rejected f => simp only [first, outcome]
    | aborted f => simp only [first, outcome]

private theorem narrows_charGroup {p q : Reader CodepointSet} (narrows : Narrows n p q) :
    Narrows n (charGroup (limited d n) p) (charGroup (limited d m) q) := by
  have positive : positiveGroup (limited d n) = positiveGroup (limited d m) := by
    rw [positiveGroup, positiveGroup, items_limited]
  have negative : negativeGroup (limited d n) = negativeGroup (limited d m) := by
    rw [negativeGroup, negativeGroup, items_limited]
  have group := Narrows.orElse (n := n) (.same positive) (.same negative)
  exact (group.pair (Narrows.skipThen (.same rfl) narrows).opt).map _

private theorem narrows_classExpr {k l : Nat} (less : k ≤ l) :
    Narrows n (classExpr (limited d n) k) (classExpr (limited d m) l) := by
  induction k generalizing l with
  | zero =>
    have inside (q : Option (Reader CodepointSet)) : ∀ a ∈ (none : Option (Reader CodepointSet)),
        ∃ b ∈ q, Narrows n a b := fun a reader => by cases reader
    cases l with
    | zero => exact narrows_enclosed (inside none)
    | succ l => exact narrows_enclosed (inside (some _))
  | succ k ih =>
    cases l with
    | zero => cases less
    | succ l =>
      refine narrows_enclosed fun a reader => ?_
      cases reader
      exact ⟨_, rfl, narrows_charGroup (ih (Nat.le_of_succ_le_succ less))⟩

private theorem narrows_charAtom {p q : Reader CodepointSet} (narrows : Narrows n p q) :
    Narrows n (charAtom (limited d n) p) (charAtom (limited d m) q) :=
  .firstOf (.same rfl) <| .cons (.same rfl) <| .cons (narrows.map _) <| .cons (.same rfl) .nil

private theorem narrows_atom {k l : Nat} (less : k ≤ l)
    (inside : ∀ a ∈ groupReader (limited d n) k, ∃ b ∈ groupReader (limited d m) l, Narrows n a b) :
    Narrows n (atom (limited d n) (classExpr (limited d n) k) (groupReader (limited d n) k))
      (atom (limited d m) (classExpr (limited d m) l) (groupReader (limited d m) l)) := by
  have group (opening : String) :
      Narrows n ((enclosed (limited d n) opening (groupReader (limited d n) k) ")").map Atom.group)
        ((enclosed (limited d m) opening (groupReader (limited d m) l) ")").map Atom.group) :=
    (narrows_enclosed inside).map _
  exact .firstOf (.same rfl) <| .cons (narrows_charAtom (narrows_classExpr less)) <|
    .cons (.same rfl) <| .cons (.same rfl) <| .cons (.same rfl) <|
    .cons ((group "(?:").guarded _) <| .cons (group "(") .nil

private theorem narrows_branch {a b : Reader Atom} (narrows : Narrows n a b) :
    Narrows n (branch (limited d n) a) (branch (limited d m) b) :=
  (((narrows.pair (.same rfl)).map _).recorded.many).map _

private theorem narrows_branches {a b : Reader Atom} (narrows : Narrows n a b) :
    Narrows n (branches (limited d n) a) (branches (limited d m) b) := by
  have branch := narrows_branch (d := d) (m := m) narrows
  exact (branch.pair (.many (.skipThen (.same rfl) (branch.cut true)))).map _

private theorem narrows_regexp {k l : Nat} (less : k ≤ l) :
    Narrows n (regexp (limited d n) k) (regexp (limited d m) l) := by
  induction k generalizing l with
  | zero =>
    rw [regexp_eq, regexp_eq]
    refine narrows_branches (narrows_atom less fun a reader => ?_)
    cases reader
  | succ k ih =>
    cases l with
    | zero => cases less
    | succ l =>
      rw [regexp_eq, regexp_eq]
      refine narrows_branches (narrows_atom less fun a reader => ?_)
      cases reader
      exact ⟨_, rfl, ih (Nat.le_of_succ_le_succ less)⟩

/-- The limit `n` gives the tree and the errors that the higher limit `m` gives, but for the error that
brackets are nested too deep. This one is for a bracket that opens where `n` are open, so there is none
if the text has no more than `n` opening brackets. -/
structure OnlyRefuses (d : Dialect) (text : String) (n m : Nat) : Prop where
  tree : ∀ r, parse (limited d n) text = .ok r → parse (limited d m) text = .ok r
  error : ∀ e, parse (limited d n) text = .error e → e.cause ≠ .violation (.nestingTooDeep n) →
    parse (limited d m) text = .error e
  place : ∀ e j, parse (limited d n) text = .error e → e.cause = .violation (.nestingTooDeep j) →
    j = n ∧ ∃ u c v, text.toList = u ++ c :: v ∧ e.offset = u.length ∧ (c = '(' ∨ c = '[') ∧
      openBrackets u = n ∧ openBrackets (u ++ [c]) = n + 1
  enough : text.toList.count '(' + text.toList.count '[' ≤ n →
    ∀ e j, parse (limited d n) text = .error e → e.cause ≠ .violation (.nestingTooDeep j)

theorem parse_limited (less : n ≤ m) (text : String) :
    parse (limited d n) text = parse (limited d m) text ∨
      ∃ e, parse (limited d n) text = .error e ∧ e.cause = .violation (.nestingTooDeep n) := by
  have whole : Narrows n (Reader.thenSkip (regexp (limited d n) n) atEnd)
      (Reader.thenSkip (regexp (limited d m) m) atEnd) :=
    (narrows_regexp less).thenSkip (.same rfl)
  obtain same | ⟨rest, aborted⟩ := whole (.ofList text.toList)
  · refine .inl ?_
    have patterns : pattern (limited d n) (.ofList text.toList) =
        pattern (limited d m) (.ofList text.toList) := by
      unfold pattern
      rw [show (limited d n).nestLimit = n from rfl, show (limited d m).nestLimit = m from rfl, same]
    rw [parse, parse, patterns]
  · refine .inr ⟨.ofFailure text ⟨rest, .violation (.nestingTooDeep n)⟩, ?_, rfl⟩
    have patterns : pattern (limited d n) (.ofList text.toList) =
        .aborted ⟨rest, .violation (.nestingTooDeep n)⟩ := by
      unfold pattern
      rw [show (limited d n).nestLimit = n from rfl]
      simp only [aborted]
    rw [parse, patterns]

private theorem place_of_nestingTooDeep {text : String} {e : PatternError} {j : Nat}
    (failed : parse (limited d n) text = .error e) (cause : e.cause = .violation (.nestingTooDeep j)) :
    j = n ∧ ∃ u c v, text.toList = u ++ c :: v ∧ e.offset = u.length ∧ (c = '(' ∨ c = '[') ∧
      openBrackets u = n ∧ openBrackets (u ++ [c]) = n + 1 := by
  obtain ⟨u, t, same, offset, offence⟩ := offence_of_parse failed cause
  cases offence with
  | nestingTooDeep bracket full opens => exact ⟨rfl, u, _, _, same, offset, bracket, full, opens⟩

private theorem openBrackets_le (text : List Char) : openBrackets text ≤ text.count '(' + text.count '[' := by
  have bound := Nesting.count_after_le (o := .start) text
  have nothing : Nesting.start.count = 0 := rfl
  rw [nothing, Nat.zero_add] at bound
  exact bound

/-- The limit for brackets inside brackets only refuses patterns that are nested too deep. -/
theorem nesting_limit_only_refuses (d : Dialect) (text : String) {n m : Nat} (less : n ≤ m) :
    OnlyRefuses d text n m := by
  refine ⟨fun r parsed => ?_, fun e failed other => ?_, fun e j failed cause => ?_,
    fun few e j failed cause => ?_⟩
  · obtain same | ⟨e, failed, _⟩ := parse_limited (d := d) less text
    · rw [← same, parsed]
    · rw [failed] at parsed
      cases parsed
  · obtain same | ⟨f, refused, tooDeep⟩ := parse_limited (d := d) less text
    · rw [← same, failed]
    · rw [failed] at refused
      cases refused
      exact absurd tooDeep other
  · exact place_of_nestingTooDeep failed cause
  · obtain ⟨_, u, c, v, same, _, _, _, opened⟩ := place_of_nestingTooDeep failed cause
    have bound := openBrackets_le (u ++ [c])
    have split : text.toList = (u ++ [c]) ++ v := by rw [same, List.append_assoc, List.singleton_append]
    rw [split, List.count_append, List.count_append (a := '[')] at few
    omega

theorem nesting_limit_two_refuses : 1 ≤ 2 ∧ OnlyRefuses .xpath "(?:[a-[b]])" 1 2 :=
  ⟨by decide, nesting_limit_only_refuses .xpath "(?:[a-[b]])" (by decide)⟩

end SchemaRegex.Pattern

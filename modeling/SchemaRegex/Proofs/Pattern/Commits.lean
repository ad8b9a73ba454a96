import SchemaRegex.Proofs.Pattern.Completeness
import SchemaRegex.Proofs.Pattern.InheritedByGroups
import SchemaRegex.Proofs.Pattern.NestingLimit

/-!
# Points of no return

A reader without points of no return never aborts: whatever goes wrong, the next alternative is tried. It
finds the same trees all the same (`commits_only_change_errors`), since no other alternative has a
derivation where a reader with points of no return gives up.
-/

namespace SchemaRegex.Pattern

namespace Reader

variable {α β : Type} {p : Reader α}

private theorem recovers_iff : p.Recovers ↔ ∀ t f, (p (.ofList t)).outcome ≠ .aborted f := by
  refine forall_congr' fun t => ?_
  unfold Rejects Takes
  cases outcome : (p (.ofList t)).outcome with
  | accepted a rest =>
    simp only [reduceCtorEq, exists_false, false_or, ne_eq, not_false_eq_true, implies_true, iff_true]
    exact ⟨a, rest.chars, by rw [rest.ofList_chars]⟩
  | rejected f => simp
  | aborted f => simp

private theorem Recovers.not_aborts (recovers : p.Recovers) (u : Unread) (f : Failure) :
    (p u).outcome ≠ .aborted f := by
  rw [← u.ofList_chars]
  exact recovers_iff.mp recovers u.chars f

private theorem recovers_atEnd : atEnd.Recovers := by
  refine recovers_iff.mpr fun t f => ?_
  cases t <;> simp [atEnd, accept, reject]

/-- A reader recovers if it aborts only where its part does. -/
theorem Recovers.of_aborts {q : Reader β} (recovers : p.Recovers)
    (part : ∀ u f, (q u).outcome = .aborted f → ∃ g, (p u).outcome = .aborted g) : q.Recovers := by
  refine recovers_iff.mpr fun t f aborted => ?_
  obtain ⟨g, outcome⟩ := part _ f aborted
  exact recovers.not_aborts _ g outcome

private theorem Recovers.opt (recovers : p.Recovers) : p.opt.Recovers := by
  refine recovers.of_aborts fun u f aborted => ?_
  unfold Reader.opt at aborted
  cases outcome : (p u).outcome <;> simp [outcome] at aborted ⊢

private theorem Recovers.consumed (recovers : p.Recovers) : p.consumed.Recovers := by
  refine recovers.of_aborts fun u f aborted => ?_
  unfold Reader.consumed at aborted
  cases outcome : (p u).outcome <;> simp [outcome] at aborted ⊢

private theorem Recovers.recorded (recovers : p.Recovers) : p.recorded.Recovers := by
  refine recovers.of_aborts fun u f aborted => ?_
  unfold Reader.recorded at aborted
  cases outcome : (p u).outcome <;> simp [outcome] at aborted ⊢

private theorem Recovers.cut (recovers : p.Recovers) : (Reader.cut false p).Recovers := by
  refine recovers.of_aborts fun u f aborted => ?_
  unfold Reader.cut Outcome.fail at aborted
  cases outcome : (p u).outcome <;> simp [outcome] at aborted ⊢

private theorem Recovers.resolve (recovers : p.Recovers) (f : α → Except Violation β) :
    (Reader.resolve false p f).Recovers := by
  refine recovers.of_aborts fun u g aborted => ?_
  unfold Reader.resolve Outcome.fail at aborted
  cases outcome : (p u).outcome with
  | accepted a rest => cases value : f a <;> simp [outcome, value] at aborted
  | rejected h => simp [outcome] at aborted
  | aborted h => exact ⟨h, rfl⟩

private theorem Recovers.guarded (recovers : p.Recovers) (enabled : Bool) :
    (Reader.guarded enabled p).Recovers := by
  cases enabled with
  | false => exact fun t => .inl ⟨_, rfl⟩
  | true => exact recovers

private theorem Recovers.many (recovers : p.Recovers) : Recovers (Reader.many p) := by
  refine recovers_iff.mpr fun t f => ?_
  induction size : t.length using Nat.strongRecOn generalizing t f with
  | ind n ih =>
    subst size
    rw [Reader.many]
    cases outcome : (p (.ofList t)).outcome with
    | accepted a rest =>
      by_cases shorter : rest.size < t.length
      · have later := ih rest.chars.length (rest.size_eq ▸ shorter) rest.chars
        rw [rest.ofList_chars] at later
        cases others : (Reader.many p rest).outcome with
        | accepted as last => simp [shorter, others]
        | rejected g => simp [shorter, others]
        | aborted g => exact absurd others (later g rfl)
      · simp [shorter]
    | rejected g => simp
    | aborted g => exact absurd outcome (recovers.not_aborts _ _)

private theorem recovers_items {s : Settings} (recovers : ∀ after, (item s after).Recovers)
    (started after : Bool) : Recovers (items s started after) := by
  refine recovers_iff.mpr fun t f => ?_
  induction size : t.length using Nat.strongRecOn generalizing t f started after with
  | ind n ih =>
    subst size
    rw [items]
    cases outcome : (item s after (.ofList t)).outcome with
    | accepted value rest =>
      by_cases shorter : rest.size < t.length
      · have later := ih rest.chars.length (rest.size_eq ▸ shorter) true value.2 rest.chars
        rw [rest.ofList_chars] at later
        simp only [Unread.size_ofList, shorter, if_true]
        split
        · simp
        · cases others : (items s true value.2 rest).outcome with
          | accepted sets last => simp
          | rejected g => simp
          | aborted g => exact absurd others (later g rfl)
      · simp [shorter]
    | rejected g => simp
    | aborted g => exact absurd outcome ((recovers after).not_aborts _ _)

private theorem inherited_recovers : Inherited false Recovers where
  accept := fun a t => .inr ⟨a, t, takes_accept.mpr ⟨rfl, rfl⟩⟩
  token := fun _ => recovers_token _
  anyChar := recovers_anyChar
  oneOf := fun _ => recovers_oneOf _
  andThen := .andThen
  orElse := .orElse
  opt := .opt
  many := fun _ => .many
  peek := .peek
  notAhead := fun _ recovers => recovers.notAhead _
  consumed := .consumed
  satisfying := fun _ recovers => recovers.satisfying _ _
  cut := .cut
  resolve := fun recovers => recovers.resolve _
  items := fun _ => recovers_items

private theorem inheritedByGroups_recovers : InheritedByGroups false Recovers where
  toInherited := inherited_recovers
  closing := recovers_token ")"
  recorded := .recorded
  switched := fun first second => first.orElse (second.guarded _)
  atEnd := recovers_atEnd

end Reader

open Reader

def uncommitted (d : Dialect) (n : Nat) : Settings := { limited d n with commits := false }

variable {d : Dialect} {n : Nat}

private theorem recovers_regexp (k : Nat) : Recovers (regexp (uncommitted d n) k) := by
  have inherited : InheritedByGroups (uncommitted d n).commits Recovers := inheritedByGroups_recovers
  exact inherited.regexp k

/-- Without points of no return no failure is final, and the trees that are found are those that are found
with them. -/
theorem commits_only_change_errors (d : Dialect) (n : Nat) (text : String) :
    (∀ f, pattern (uncommitted d n) (.ofList text.toList) ≠ .aborted f) ∧
    ∀ r, parse (uncommitted d n) text = .ok r ↔ parse (limited d n) text = .ok r := by
  constructor
  · intro f fails
    have whole : (Reader.thenSkip (regexp (uncommitted d n) n) atEnd).Recovers :=
      (recovers_regexp n).andThen fun _ => recovers_atEnd.map _
    unfold pattern at fails
    rw [show (uncommitted d n).nestLimit = n from rfl] at fails
    cases outcome : (Reader.thenSkip (regexp (uncommitted d n) n) atEnd (.ofList text.toList)).outcome with
    | accepted r rest =>
      simp only [outcome] at fails
      cases fails
    | rejected g =>
      simp only [outcome] at fails
      split at fails <;> cases fails
    | aborted g => exact absurd outcome (whole.not_aborts _ _)
  · intro r
    -- Derivations know nothing of points of no return.
    have without : parse (uncommitted d n) text = .ok r ↔ DerivesRegex d n text.toList r := parse_eq_ok
    have kept : parse (limited d n) text = .ok r ↔ DerivesRegex d n text.toList r := parse_eq_ok
    exact without.trans kept.symm

end SchemaRegex.Pattern

import SchemaRegex.Proofs.Pattern.Taking

/-!
# Which rules are found broken

A reader finds a rule broken when it fails for that reason, or when it records such a failure and
reads on (`Breaks`). Where a compound reader finds a rule broken, one of its parts does, at a place that
it came to by what the parts before it take.
-/

namespace SchemaRegex.Pattern

/-- Of two failures one is kept, or there are only tokens that were expected. -/
theorem Failure.eq_of_merge {f g : Failure} {rest : Unread} {v : Violation}
    (merged : f.merge g = ⟨rest, .violation v⟩) :
    f = ⟨rest, .violation v⟩ ∨ g = ⟨rest, .violation v⟩ := by
  unfold merge at merged
  split at merged
  · exact .inr merged
  split at merged
  · exact .inl merged
  split at merged
  · cases merged
  · exact .inl merged

def Attempt.Reports {α : Type} (x : Attempt α) (f : Failure) : Prop :=
  x.outcome = .rejected f ∨ x.outcome = .aborted f ∨ f ∈ x.trail

namespace Reader

variable {α β : Type} {t r : List Char} {v : Violation} {f g : Failure} {trail : List Failure}

theorem reports_accepted {a : α} {rest : Unread} :
    (Attempt.mk (.accepted a rest) trail).Reports f ↔ f ∈ trail := by
  simp [Attempt.Reports]

theorem reports_rejected :
    (Attempt.mk (.rejected g : Outcome α) trail).Reports f ↔ g = f ∨ f ∈ trail := by
  simp [Attempt.Reports]

theorem reports_aborted :
    (Attempt.mk (.aborted g : Outcome α) trail).Reports f ↔ g = f ∨ f ∈ trail := by
  simp [Attempt.Reports]

theorem reports_fail {commits : Bool} :
    (Attempt.mk (.fail commits g : Outcome α) trail).Reports f ↔ g = f ∨ f ∈ trail := by
  cases commits
  · exact reports_rejected
  · exact reports_aborted

theorem reports_of_mem_trail {x : Attempt α} (member : f ∈ x.trail) : x.Reports f :=
  .inr (.inr member)

theorem reports_of_rejected {x : Attempt α} (rejected : x.outcome = .rejected g)
    (reported : g = f ∨ f ∈ x.trail) : x.Reports f :=
  reported.elim (fun same => .inl (same ▸ rejected)) reports_of_mem_trail

theorem reports_of_aborted {x : Attempt α} (aborted : x.outcome = .aborted g)
    (reported : g = f ∨ f ∈ x.trail) : x.Reports f :=
  reported.elim (fun same => .inr (.inl (same ▸ aborted))) reports_of_mem_trail

/-- From this text the reader comes to another one where a rule is broken. -/
def Breaks (p : Reader α) (t : List Char) (v : Violation) (r : List Char) : Prop :=
  (p (.ofList t)).Reports ⟨.ofList r, .violation v⟩

theorem Takes.of_accepted {p : Reader α} {a : α} {rest : Unread}
    (accepted : (p (.ofList t)).outcome = .accepted a rest) : p.Takes t a rest.chars := by
  rw [Takes, rest.ofList_chars, accepted]

theorem Breaks.of_reports {p : Reader α} {rest : Unread}
    (reported : (p rest).Reports ⟨.ofList r, .violation v⟩) : p.Breaks rest.chars v r := by
  rw [Breaks, rest.ofList_chars]
  exact reported

theorem not_breaks_accept {a : α} : ¬ (accept a).Breaks t v r := by
  simp [Breaks, accept, reports_accepted]

theorem not_breaks_reject {tokens : List String} : ¬ (reject tokens : Reader α).Breaks t v r := by
  simp [Breaks, reject, reports_rejected]

theorem Breaks.of_andThen {p : Reader α} {next : α → Reader β}
    (breaks : (p.andThen next).Breaks t v r) :
    p.Breaks t v r ∨ ∃ a u, p.Takes t a u ∧ (next a).Breaks u v r := by
  unfold Breaks andThen at breaks
  cases first : (p (.ofList t)).outcome with
  | accepted a rest =>
    simp only [first, Attempt.Reports, List.mem_append] at breaks
    have behind (later : (next a rest).Reports ⟨.ofList r, .violation v⟩) :
        ∃ a u, p.Takes t a u ∧ (next a).Breaks u v r :=
      ⟨a, rest.chars, .of_accepted first, .of_reports later⟩
    obtain rejected | aborted | before | later := breaks
    · exact .inr (behind (.inl rejected))
    · exact .inr (behind (.inr (.inl aborted)))
    · exact .inl (reports_of_mem_trail before)
    · exact .inr (behind (reports_of_mem_trail later))
  | rejected g =>
    simp only [first, reports_rejected] at breaks
    exact .inl (reports_of_rejected first breaks)
  | aborted g =>
    simp only [first, reports_aborted] at breaks
    exact .inl (reports_of_aborted first breaks)

theorem Breaks.of_map {p : Reader α} {f : α → β} (breaks : (p.map f).Breaks t v r) :
    p.Breaks t v r := by
  obtain first | ⟨_, _, _, never⟩ := of_andThen breaks
  · exact first
  · exact absurd never not_breaks_accept

theorem Breaks.of_pair {p : Reader α} {q : Reader β} (breaks : (p.pair q).Breaks t v r) :
    p.Breaks t v r ∨ ∃ a u, p.Takes t a u ∧ q.Breaks u v r :=
  (of_andThen breaks).imp id fun ⟨a, u, takes, later⟩ => ⟨a, u, takes, of_map later⟩

theorem Breaks.of_skipThen {p : Reader α} {q : Reader β} (breaks : (p.skipThen q).Breaks t v r) :
    p.Breaks t v r ∨ ∃ a u, p.Takes t a u ∧ q.Breaks u v r :=
  of_andThen breaks

theorem Breaks.of_thenSkip {p : Reader α} {q : Reader β} (breaks : (p.thenSkip q).Breaks t v r) :
    p.Breaks t v r ∨ ∃ a u, p.Takes t a u ∧ q.Breaks u v r :=
  (of_andThen breaks).imp id fun ⟨a, u, takes, later⟩ => ⟨a, u, takes, of_map later⟩

theorem Breaks.of_orElse {p q : Reader α} (breaks : (p.orElse q).Breaks t v r) :
    p.Breaks t v r ∨ p.Rejects t ∧ q.Breaks t v r := by
  unfold Breaks orElse at breaks
  cases first : (p (.ofList t)).outcome with
  | accepted a rest =>
    simp only [first, reports_accepted] at breaks
    exact .inl (reports_of_mem_trail breaks)
  | rejected f =>
    have rejects : p.Rejects t := ⟨f, first⟩
    cases second : (q (.ofList t)).outcome with
    | accepted a rest =>
      simp only [first, second, reports_accepted, List.mem_append] at breaks
      exact breaks.imp reports_of_mem_trail fun later => ⟨rejects, reports_of_mem_trail later⟩
    | rejected g =>
      simp only [first, second, reports_rejected, List.mem_append] at breaks
      obtain merged | before | later := breaks
      · exact (Failure.eq_of_merge merged).imp (fun same => reports_of_rejected first (.inl same))
          fun same => ⟨rejects, reports_of_rejected second (.inl same)⟩
      · exact .inl (reports_of_mem_trail before)
      · exact .inr ⟨rejects, reports_of_mem_trail later⟩
    | aborted g =>
      simp only [first, second, reports_aborted, List.mem_append] at breaks
      obtain same | before | later := breaks
      · exact .inr ⟨rejects, reports_of_aborted second (.inl same)⟩
      · exact .inl (reports_of_mem_trail before)
      · exact .inr ⟨rejects, reports_of_mem_trail later⟩
  | aborted f =>
    simp only [first, reports_aborted] at breaks
    exact .inl (reports_of_aborted first breaks)

theorem Breaks.of_firstOf {p : Reader α} {ps : List (Reader α)} (breaks : (firstOf p ps).Breaks t v r) :
    ∃ q ∈ p :: ps, q.Breaks t v r :=
  exists_of_firstOf (fun breaks => (of_orElse breaks).imp_right And.right) breaks

theorem Breaks.of_opt {p : Reader α} (breaks : p.opt.Breaks t v r) : p.Breaks t v r := by
  unfold Breaks opt at breaks
  cases first : (p (.ofList t)).outcome with
  | accepted a rest =>
    simp only [first, reports_accepted] at breaks
    exact reports_of_mem_trail breaks
  | rejected f =>
    simp only [first, reports_accepted] at breaks
    exact reports_of_mem_trail breaks
  | aborted f =>
    simp only [first, reports_aborted] at breaks
    exact reports_of_aborted first breaks

theorem Breaks.of_many {p : Reader α} (breaks : Breaks (many p) t v r) :
    p.Breaks t v r ∨
      ∃ a u, p.Takes t a u ∧ u.length < t.length ∧ Breaks (many p) u v r := by
  unfold Breaks at breaks
  rw [many] at breaks
  cases first : (p (.ofList t)).outcome with
  | accepted a rest =>
    simp only [first] at breaks
    split at breaks
    · rename_i shorter
      rw [rest.size_eq] at shorter
      have behind (later : (many p rest).Reports ⟨.ofList r, .violation v⟩) :
          ∃ a u, p.Takes t a u ∧ u.length < t.length ∧ Breaks (many p) u v r :=
        ⟨a, rest.chars, .of_accepted first, shorter, .of_reports later⟩
      cases others : (many p rest).outcome with
      | accepted values last =>
        simp only [others, reports_accepted, List.mem_append] at breaks
        exact breaks.imp reports_of_mem_trail fun later => behind (reports_of_mem_trail later)
      | rejected f =>
        simp only [others, reports_rejected, List.mem_append] at breaks
        obtain same | before | later := breaks
        · exact .inr (behind (reports_of_rejected others (.inl same)))
        · exact .inl (reports_of_mem_trail before)
        · exact .inr (behind (reports_of_mem_trail later))
      | aborted f =>
        simp only [others, reports_aborted, List.mem_append] at breaks
        obtain same | before | later := breaks
        · exact .inr (behind (reports_of_aborted others (.inl same)))
        · exact .inl (reports_of_mem_trail before)
        · exact .inr (behind (reports_of_mem_trail later))
    · simp only [reports_rejected, Failure.mk.injEq, reduceCtorEq, and_false, false_or] at breaks
      exact .inl (reports_of_mem_trail breaks)
  | rejected f =>
    simp only [first, reports_accepted] at breaks
    exact .inl (reports_of_mem_trail breaks)
  | aborted f =>
    simp only [first, reports_aborted] at breaks
    exact .inl (reports_of_aborted first breaks)

theorem Breaks.of_peek {p : Reader α} (breaks : p.peek.Breaks t v r) : p.Breaks t v r := by
  unfold Breaks peek at breaks
  cases first : (p (.ofList t)).outcome with
  | accepted a rest =>
    simp only [first, reports_accepted] at breaks
    exact reports_of_mem_trail breaks
  | rejected f =>
    simp only [first, reports_rejected] at breaks
    exact reports_of_rejected first breaks
  | aborted f =>
    simp only [first, reports_aborted] at breaks
    exact reports_of_aborted first breaks

theorem Breaks.of_notAhead {p : Reader α} {tokens : List String}
    (breaks : (p.notAhead tokens).Breaks t v r) : p.Breaks t v r := by
  unfold Breaks notAhead at breaks
  cases first : (p (.ofList t)).outcome with
  | accepted a rest =>
    simp only [first, reports_rejected, Failure.mk.injEq, reduceCtorEq, and_false, false_or] at breaks
    exact reports_of_mem_trail breaks
  | rejected f =>
    simp only [first, reports_accepted] at breaks
    exact reports_of_mem_trail breaks
  | aborted f =>
    simp only [first, reports_aborted] at breaks
    exact reports_of_aborted first breaks

theorem Breaks.of_consumed {p : Reader α} (breaks : p.consumed.Breaks t v r) : p.Breaks t v r := by
  unfold Breaks consumed at breaks
  cases first : (p (.ofList t)).outcome with
  | accepted a rest =>
    simp only [first, reports_accepted] at breaks
    exact reports_of_mem_trail breaks
  | rejected f =>
    simp only [first, reports_rejected] at breaks
    exact reports_of_rejected first breaks
  | aborted f =>
    simp only [first, reports_aborted] at breaks
    exact reports_of_aborted first breaks

theorem Breaks.of_satisfying {p : Reader α} {test : α → Bool} {tokens : List String}
    (breaks : (p.satisfying test tokens).Breaks t v r) : p.Breaks t v r := by
  unfold Breaks satisfying at breaks
  cases first : (p (.ofList t)).outcome with
  | accepted a rest =>
    simp only [first] at breaks
    split at breaks
    · exact reports_of_mem_trail (reports_accepted.mp breaks)
    · simp only [reports_rejected, Failure.mk.injEq, reduceCtorEq, and_false, false_or] at breaks
      exact reports_of_mem_trail breaks
  | rejected f =>
    simp only [first] at breaks
    split at breaks
    · simp only [reports_rejected, Failure.mk.injEq, reduceCtorEq, and_false, false_or] at breaks
      exact reports_of_mem_trail breaks
    · exact reports_of_rejected first (reports_rejected.mp breaks)
  | aborted f =>
    simp only [first, reports_aborted] at breaks
    exact reports_of_aborted first breaks

theorem Breaks.of_guarded {enabled : Bool} {p : Reader α} (breaks : (guarded enabled p).Breaks t v r) :
    enabled = true ∧ p.Breaks t v r := by
  cases enabled with
  | false => exact absurd breaks not_breaks_reject
  | true => exact ⟨rfl, breaks⟩

theorem Breaks.of_cut {commits : Bool} {p : Reader α} (breaks : (cut commits p).Breaks t v r) :
    p.Breaks t v r := by
  unfold Breaks cut at breaks
  cases first : (p (.ofList t)).outcome with
  | accepted a rest =>
    simp only [first, reports_accepted] at breaks
    exact reports_of_mem_trail breaks
  | rejected f =>
    simp only [first, reports_fail] at breaks
    exact reports_of_rejected first breaks
  | aborted f =>
    simp only [first, reports_aborted] at breaks
    exact reports_of_aborted first breaks

theorem Breaks.of_recorded {p : Reader α} (breaks : p.recorded.Breaks t v r) : p.Breaks t v r := by
  unfold Breaks recorded at breaks
  cases first : (p (.ofList t)).outcome with
  | accepted a rest =>
    simp only [first, reports_accepted] at breaks
    exact reports_of_mem_trail breaks
  | rejected f =>
    simp only [first, reports_rejected, List.mem_append, List.mem_singleton] at breaks
    obtain same | before | same := breaks
    · exact reports_of_rejected first (.inl same)
    · exact reports_of_mem_trail before
    · exact reports_of_rejected first (.inl same.symm)
  | aborted f =>
    simp only [first, reports_aborted] at breaks
    exact reports_of_aborted first breaks

/-- A rule is broken by a part of the reader, or the value breaks one where it starts. -/
theorem Breaks.of_resolve {commits : Bool} {p : Reader α} {f : α → Except Violation β}
    (breaks : (resolve commits p f).Breaks t v r) :
    p.Breaks t v r ∨ r = t ∧ ∃ a u, p.Takes t a u ∧ f a = .error v := by
  unfold Breaks resolve at breaks
  cases first : (p (.ofList t)).outcome with
  | accepted a rest =>
    simp only [first] at breaks
    cases value : f a with
    | ok b =>
      simp only [value, reports_accepted] at breaks
      exact .inl (reports_of_mem_trail breaks)
    | error w =>
      simp only [value, reports_fail, Failure.mk.injEq, Cause.violation.injEq] at breaks
      obtain ⟨place, same⟩ | before := breaks
      · exact .inr ⟨(ofList_injective place).symm, a, rest.chars, .of_accepted first, same ▸ value⟩
      · exact .inl (reports_of_mem_trail before)
  | rejected g =>
    simp only [first, reports_rejected] at breaks
    exact .inl (reports_of_rejected first breaks)
  | aborted g =>
    simp only [first, reports_aborted] at breaks
    exact .inl (reports_of_aborted first breaks)

def BreaksNothing (p : Reader α) : Prop := ∀ t v r, ¬ p.Breaks t v r

theorem breaksNothing_token (text : String) : (token text).BreaksNothing := by
  intro t v r breaks
  unfold Breaks token at breaks
  split at breaks
  · exact not_breaks_accept (Breaks.of_reports breaks)
  · exact not_breaks_reject (Breaks.of_reports breaks)

theorem breaksNothing_anyChar : anyChar.BreaksNothing := by
  intro t v r breaks
  unfold Breaks anyChar at breaks
  split at breaks
  · exact not_breaks_reject (Breaks.of_reports breaks)
  · exact not_breaks_accept (Breaks.of_reports breaks)

theorem breaksNothing_oneOf (chars : List Char) : (oneOf chars).BreaksNothing := by
  intro t v r breaks
  unfold Breaks oneOf at breaks
  split at breaks
  · exact not_breaks_reject (Breaks.of_reports breaks)
  split at breaks
  · exact not_breaks_accept (Breaks.of_reports breaks)
  · exact not_breaks_reject (Breaks.of_reports breaks)

theorem breaksNothing_atEnd : atEnd.BreaksNothing := by
  intro t v r breaks
  unfold Breaks atEnd at breaks
  split at breaks
  · exact not_breaks_accept (Breaks.of_reports breaks)
  · exact not_breaks_reject (Breaks.of_reports breaks)

theorem BreaksNothing.andThen {p : Reader α} {next : α → Reader β} (first : p.BreaksNothing)
    (second : ∀ a, (next a).BreaksNothing) : (p.andThen next).BreaksNothing := by
  intro t v r breaks
  obtain here | ⟨a, u, _, later⟩ := breaks.of_andThen
  · exact first t v r here
  · exact second a u v r later

theorem BreaksNothing.map {p : Reader α} (nothing : p.BreaksNothing) (f : α → β) :
    (p.map f).BreaksNothing :=
  fun t v r breaks => nothing t v r breaks.of_map

theorem BreaksNothing.thenSkip {p : Reader α} {q : Reader β} (first : p.BreaksNothing)
    (second : q.BreaksNothing) : (p.thenSkip q).BreaksNothing :=
  first.andThen fun _ => second.map _

theorem BreaksNothing.orElse {p q : Reader α} (first : p.BreaksNothing) (second : q.BreaksNothing) :
    (p.orElse q).BreaksNothing := by
  intro t v r breaks
  obtain here | ⟨_, later⟩ := breaks.of_orElse
  · exact first t v r here
  · exact second t v r later

theorem BreaksNothing.opt {p : Reader α} (nothing : p.BreaksNothing) : p.opt.BreaksNothing :=
  fun t v r breaks => nothing t v r breaks.of_opt

theorem BreaksNothing.many {p : Reader α} (nothing : p.BreaksNothing) : BreaksNothing (many p) := by
  intro t
  induction size : t.length using Nat.strongRecOn generalizing t with
  | ind n ih =>
    intro v r breaks
    obtain here | ⟨_, u, _, shorter, later⟩ := breaks.of_many
    · exact nothing t v r here
    · exact ih u.length (size ▸ shorter) u rfl v r later

theorem BreaksNothing.many1 {p : Reader α} (nothing : p.BreaksNothing) : p.many1.BreaksNothing :=
  nothing.andThen fun _ => nothing.many.map _

theorem BreaksNothing.peek {p : Reader α} (nothing : p.BreaksNothing) : p.peek.BreaksNothing :=
  fun t v r breaks => nothing t v r breaks.of_peek

theorem BreaksNothing.notAhead {p : Reader α} (nothing : p.BreaksNothing) (tokens : List String) :
    (p.notAhead tokens).BreaksNothing :=
  fun t v r breaks => nothing t v r breaks.of_notAhead

theorem BreaksNothing.consumed {p : Reader α} (nothing : p.BreaksNothing) : p.consumed.BreaksNothing :=
  fun t v r breaks => nothing t v r breaks.of_consumed

theorem BreaksNothing.satisfying {p : Reader α} (nothing : p.BreaksNothing) (test : α → Bool)
    (tokens : List String) : (p.satisfying test tokens).BreaksNothing :=
  fun t v r breaks => nothing t v r breaks.of_satisfying

theorem Breaks.of_delimited {commits : Bool} {opening closing : String} {p : Reader α}
    (breaks : (delimited commits opening p closing).Breaks t v r) :
    ∃ u, t = opening.toList ++ u ∧ p.Breaks u v r := by
  obtain never | ⟨_, u, front, inside⟩ := breaks.of_skipThen
  · exact absurd never (breaksNothing_token opening t v r)
  · obtain inside | ⟨_, w, _, never⟩ := inside.of_cut.of_thenSkip
    · exact ⟨u, takes_token.mp front, inside⟩
    · exact absurd never (breaksNothing_token closing w v r)

/-- In brackets a rule is broken, or the brackets are nested too deep where they start. -/
theorem Breaks.of_enclosed {s : Settings} {opening closing : String} {inner : Option (Reader α)}
    (breaks : (enclosed s opening inner closing).Breaks t v r) :
    ∃ u, t = opening.toList ++ u ∧
      (inner = none ∧ v = .nestingTooDeep s.nestLimit ∧ r = t ∨ ∃ p ∈ inner, p.Breaks u v r) := by
  cases inner with
  | none =>
    obtain never | ⟨place, _, u, front, same⟩ := Breaks.of_resolve breaks
    · exact absurd never (breaksNothing_token opening t v r)
    · cases same
      exact ⟨u, takes_token.mp front, .inl ⟨rfl, rfl, place⟩⟩
  | some p =>
    obtain ⟨u, front, inside⟩ := Breaks.of_delimited breaks
    exact ⟨u, front, .inr ⟨p, rfl, inside⟩⟩

end Reader

end SchemaRegex.Pattern

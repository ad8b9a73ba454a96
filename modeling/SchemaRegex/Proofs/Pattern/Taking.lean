import SchemaRegex.Pattern.Settings

/-!
# What readers take

A reader takes a value from a text and leaves another text, or rejects the text, or aborts. For each
reader there is a rule for when it takes something and, where another reader may be tried, one for
when it rejects. Commits only decide between rejecting and aborting, so nothing is said about them.
-/

namespace SchemaRegex.Pattern.Reader

variable {α β γ : Type}

/-- The reader takes the value from the first text and leaves the second. -/
def Takes (p : Reader α) (t : List Char) (a : α) (v : List Char) : Prop :=
  (p (.ofList t)).outcome = .accepted a (.ofList v)

def Rejects (p : Reader α) (t : List Char) : Prop := ∃ f, (p (.ofList t)).outcome = .rejected f

theorem ofList_injective {t v : List Char} (same : Unread.ofList t = .ofList v) : t = v :=
  congrArg Unread.chars same

theorem Takes.unique {p : Reader α} {t v w : List Char} {a b : α} (first : p.Takes t a v)
    (second : p.Takes t b w) : a = b ∧ v = w := by
  have same := first.symm.trans second
  injection same with value rest
  exact ⟨value, ofList_injective rest⟩

theorem Rejects.not_takes {p : Reader α} {t v : List Char} {a : α} (rejects : p.Rejects t) :
    ¬ p.Takes t a v := by
  intro takes
  obtain ⟨f, rejected⟩ := rejects
  cases takes.symm.trans rejected

@[simp] theorem takes_accept {a b : α} {t v : List Char} :
    (accept a).Takes t b v ↔ b = a ∧ v = t := by
  constructor
  · intro takes
    injection takes with value rest
    exact ⟨value.symm, (ofList_injective rest).symm⟩
  · intro given
    obtain ⟨value, rest⟩ := given
    rw [value, rest]
    rfl

@[simp] theorem not_rejects_accept {a : α} {t : List Char} : ¬ (accept a).Rejects t := by
  simp [Rejects, accept]

@[simp] theorem takes_andThen {p : Reader α} {next : α → Reader β} {t v : List Char} {b : β} :
    (p.andThen next).Takes t b v ↔ ∃ a u, p.Takes t a u ∧ (next a).Takes u b v := by
  simp only [Takes, andThen]
  cases first : (p (.ofList t)).outcome with
  | accepted a rest =>
    simp only [Outcome.accepted.injEq]
    constructor
    · intro second
      exact ⟨a, rest.chars, ⟨rfl, rest.ofList_chars.symm⟩, by rw [rest.ofList_chars]; exact second⟩
    · intro given
      obtain ⟨_, _, ⟨value, same⟩, second⟩ := given
      rw [value, same]
      exact second
  | rejected f => simp
  | aborted f => simp

theorem rejects_andThen {p : Reader α} {next : α → Reader β} {t : List Char} :
    (p.andThen next).Rejects t ↔ p.Rejects t ∨ ∃ a u, p.Takes t a u ∧ (next a).Rejects u := by
  simp only [Rejects, Takes, andThen]
  cases first : (p (.ofList t)).outcome with
  | accepted a rest =>
    simp only [Outcome.accepted.injEq, reduceCtorEq, exists_false, false_or]
    constructor
    · intro second
      exact ⟨a, rest.chars, ⟨rfl, rest.ofList_chars.symm⟩, by rw [rest.ofList_chars]; exact second⟩
    · intro given
      obtain ⟨_, _, ⟨value, same⟩, second⟩ := given
      rw [value, same]
      exact second
  | rejected f => simp
  | aborted f => simp

@[simp] theorem takes_map {p : Reader α} {f : α → β} {t v : List Char} {b : β} :
    (p.map f).Takes t b v ↔ ∃ a, p.Takes t a v ∧ b = f a := by
  simp only [map, takes_andThen, takes_accept]
  constructor
  · intro given
    obtain ⟨a, u, takes, value, rest⟩ := given
    exact ⟨a, rest ▸ takes, value⟩
  · intro given
    obtain ⟨a, takes, value⟩ := given
    exact ⟨a, v, takes, value, rfl⟩

@[simp] theorem rejects_map {p : Reader α} {f : α → β} {t : List Char} :
    (p.map f).Rejects t ↔ p.Rejects t := by
  simp [map, rejects_andThen]

@[simp] theorem takes_as {p : Reader α} {b c : β} {t v : List Char} :
    (p.as b).Takes t c v ↔ (∃ a, p.Takes t a v) ∧ c = b := by
  simp [as]

@[simp] theorem rejects_as {p : Reader α} {b : β} {t : List Char} :
    (p.as b).Rejects t ↔ p.Rejects t := rejects_map

@[simp] theorem takes_pair {p : Reader α} {q : Reader β} {t v : List Char} {a : α} {b : β} :
    (p.pair q).Takes t (a, b) v ↔ ∃ u, p.Takes t a u ∧ q.Takes u b v := by
  simp only [pair, takes_andThen, takes_map, Prod.mk.injEq]
  constructor
  · intro given
    obtain ⟨_, u, first, _, second, same, other⟩ := given
    rw [same, other]
    exact ⟨u, first, second⟩
  · intro given
    obtain ⟨u, first, second⟩ := given
    exact ⟨a, u, first, b, second, rfl, rfl⟩

theorem rejects_pair {p : Reader α} {q : Reader β} {t : List Char} :
    (p.pair q).Rejects t ↔ p.Rejects t ∨ ∃ a u, p.Takes t a u ∧ q.Rejects u := by
  simp [pair, rejects_andThen]

@[simp] theorem takes_skipThen {p : Reader α} {q : Reader β} {t v : List Char} {b : β} :
    (p.skipThen q).Takes t b v ↔ ∃ a u, p.Takes t a u ∧ q.Takes u b v := takes_andThen

theorem rejects_skipThen {p : Reader α} {q : Reader β} {t : List Char} :
    (p.skipThen q).Rejects t ↔ p.Rejects t ∨ ∃ a u, p.Takes t a u ∧ q.Rejects u := rejects_andThen

@[simp] theorem takes_thenSkip {p : Reader α} {q : Reader β} {t v : List Char} {a : α} :
    (p.thenSkip q).Takes t a v ↔ ∃ u, p.Takes t a u ∧ ∃ b, q.Takes u b v := by
  simp only [thenSkip, takes_andThen, takes_map]
  constructor
  · intro given
    obtain ⟨_, u, first, b, second, same⟩ := given
    rw [same]
    exact ⟨u, first, b, second⟩
  · intro given
    obtain ⟨u, first, b, second⟩ := given
    exact ⟨a, u, first, b, second, rfl⟩

theorem rejects_thenSkip {p : Reader α} {q : Reader β} {t : List Char} :
    (p.thenSkip q).Rejects t ↔ p.Rejects t ∨ ∃ a u, p.Takes t a u ∧ q.Rejects u := by
  simp [thenSkip, rejects_andThen]

@[simp] theorem takes_orElse {p q : Reader α} {t v : List Char} {a : α} :
    (p.orElse q).Takes t a v ↔ p.Takes t a v ∨ p.Rejects t ∧ q.Takes t a v := by
  simp only [Rejects, Takes, orElse]
  cases first : (p (.ofList t)).outcome with
  | accepted b rest => simp
  | rejected f =>
    cases second : (q (.ofList t)).outcome <;> simp
  | aborted f => simp

@[simp] theorem rejects_orElse {p q : Reader α} {t : List Char} :
    (p.orElse q).Rejects t ↔ p.Rejects t ∧ q.Rejects t := by
  simp only [Rejects, orElse]
  cases first : (p (.ofList t)).outcome with
  | accepted b rest => simp
  | rejected f =>
    cases second : (q (.ofList t)).outcome <;> simp
  | aborted f => simp

@[simp] theorem takes_opt_some {p : Reader α} {t v : List Char} {a : α} :
    p.opt.Takes t (some a) v ↔ p.Takes t a v := by
  simp only [Takes, opt]
  cases first : (p (.ofList t)).outcome <;> simp

@[simp] theorem takes_opt_none {p : Reader α} {t v : List Char} :
    p.opt.Takes t none v ↔ p.Rejects t ∧ v = t := by
  simp only [Rejects, Takes, opt]
  cases first : (p (.ofList t)).outcome with
  | accepted b rest => simp
  | rejected f =>
    simp only [Outcome.accepted.injEq, true_and, Outcome.rejected.injEq, exists_eq']
    exact ⟨fun same => (ofList_injective same).symm, fun same => by rw [same]⟩
  | aborted f => simp

@[simp] theorem takes_many_nil {p : Reader α} {t v : List Char} :
    Takes (many p) t [] v ↔ p.Rejects t ∧ v = t := by
  unfold Rejects Takes
  rw [many]
  dsimp only
  cases first : (p (.ofList t)).outcome with
  | accepted a rest =>
    simp only [reduceCtorEq, exists_false, false_and, iff_false]
    split
    · cases (many p rest).outcome <;> simp
    · simp
  | rejected f =>
    simp only [Outcome.accepted.injEq, true_and, Outcome.rejected.injEq, exists_eq']
    exact ⟨fun same => (ofList_injective same).symm, fun same => by rw [same]⟩
  | aborted f => simp

@[simp] theorem takes_many_cons {p : Reader α} {t v : List Char} {a : α} {as : List α} :
    Takes (many p) t (a :: as) v ↔
      ∃ u, p.Takes t a u ∧ u.length < t.length ∧ Takes (many p) u as v := by
  unfold Takes
  rw [many]
  dsimp only
  cases first : (p (.ofList t)).outcome with
  | accepted b rest =>
    dsimp only
    have place : rest = .ofList rest.chars := rest.ofList_chars.symm
    have shorter : rest.size < (Unread.ofList t).size ↔ rest.chars.length < t.length := by
      rw [rest.size_eq]
      rfl
    constructor
    · intro takes
      split at takes
      · rename_i less
        split at takes
        · rename_i bs last others
          injection takes with values same
          injection values with value values
          refine ⟨rest.chars, by rw [← place, value], shorter.mp less, ?_⟩
          rw [← place, others, values, same]
        · cases takes
        · cases takes
      · cases takes
    · intro given
      obtain ⟨u, same, less, more⟩ := given
      injection same with value same
      subst value same
      rw [if_pos (shorter.mpr less), more]
  | rejected f => simp
  | aborted f => simp

@[simp] theorem takes_many1 {p : Reader α} {t v : List Char} {as : List α} :
    p.many1.Takes t as v ↔
      ∃ a bs, as = a :: bs ∧ ∃ u, p.Takes t a u ∧ Takes (many p) u bs v := by
  simp only [many1, takes_andThen, takes_map]
  constructor
  · intro given
    obtain ⟨a, u, first, bs, others, same⟩ := given
    exact ⟨a, bs, same, u, first, others⟩
  · intro given
    obtain ⟨a, bs, same, u, first, others⟩ := given
    exact ⟨a, u, first, bs, others, same⟩

theorem Rejects.many1 {p : Reader α} {t : List Char} (rejects : p.Rejects t) : p.many1.Rejects t :=
  rejects_andThen.mpr (.inl rejects)

@[simp] theorem takes_peek {p : Reader α} {t v : List Char} {a : α} :
    p.peek.Takes t a v ↔ (∃ u, p.Takes t a u) ∧ v = t := by
  simp only [Takes, peek]
  cases first : (p (.ofList t)).outcome with
  | accepted b rest =>
    simp only [Outcome.accepted.injEq]
    constructor
    · intro given
      obtain ⟨value, same⟩ := given
      exact ⟨⟨rest.chars, value, rest.ofList_chars.symm⟩, (ofList_injective same).symm⟩
    · intro given
      obtain ⟨⟨_, value, _⟩, same⟩ := given
      exact ⟨value, by rw [same]⟩
  | rejected f => simp
  | aborted f => simp

@[simp] theorem rejects_peek {p : Reader α} {t : List Char} : p.peek.Rejects t ↔ p.Rejects t := by
  simp only [Rejects, peek]
  cases first : (p (.ofList t)).outcome <;> simp

@[simp] theorem takes_notAhead {p : Reader α} {tokens : List String} {t v : List Char} {a : Unit} :
    (p.notAhead tokens).Takes t a v ↔ p.Rejects t ∧ v = t := by
  simp only [Takes, Rejects, notAhead]
  cases first : (p (.ofList t)).outcome with
  | accepted b rest => simp
  | rejected f =>
    simp only [Outcome.accepted.injEq, true_and, Outcome.rejected.injEq, exists_eq']
    exact ⟨fun same => (ofList_injective same).symm, fun same => by rw [same]⟩
  | aborted f => simp

@[simp] theorem rejects_notAhead {p : Reader α} {tokens : List String} {t : List Char} :
    (p.notAhead tokens).Rejects t ↔ ∃ a u, p.Takes t a u := by
  simp only [Takes, Rejects, notAhead]
  cases first : (p (.ofList t)).outcome with
  | accepted b rest =>
    simp only [Outcome.rejected.injEq, exists_eq', true_iff]
    exact ⟨b, rest.chars, by rw [rest.ofList_chars]⟩
  | rejected f => simp
  | aborted f => simp

@[simp] theorem takes_consumed {p : Reader α} {t v w : List Char} :
    p.consumed.Takes t w v ↔ (∃ a, p.Takes t a v) ∧ w = t.take (t.length - v.length) := by
  simp only [Takes, consumed]
  cases first : (p (.ofList t)).outcome with
  | accepted b rest =>
    simp only [Outcome.accepted.injEq, Unread.size_ofList, exists_and_right,
      exists_eq', true_and]
    constructor
    · intro given
      obtain ⟨text, same⟩ := given
      refine ⟨same, ?_⟩
      rw [← text, same, Unread.chars_ofList, Unread.size_ofList]
    · intro given
      obtain ⟨same, text⟩ := given
      refine ⟨?_, same⟩
      rw [text, same, Unread.chars_ofList, Unread.size_ofList]
  | rejected f => simp
  | aborted f => simp

@[simp] theorem rejects_consumed {p : Reader α} {t : List Char} :
    p.consumed.Rejects t ↔ p.Rejects t := by
  simp only [Rejects, consumed]
  cases first : (p (.ofList t)).outcome <;> simp

@[simp] theorem takes_satisfying {p : Reader α} {test : α → Bool} {tokens : List String}
    {t v : List Char} {a : α} :
    (p.satisfying test tokens).Takes t a v ↔ p.Takes t a v ∧ test a = true := by
  simp only [Takes, satisfying]
  cases first : (p (.ofList t)).outcome with
  | accepted b rest =>
    by_cases passes : test b = true
    · simp only [passes, if_true, Outcome.accepted.injEq]
      exact ⟨fun same => ⟨same, same.1 ▸ passes⟩, And.left⟩
    · simp only [passes, Bool.false_eq_true, if_false, reduceCtorEq, Outcome.accepted.injEq, false_iff]
      intro given
      obtain ⟨same, other⟩ := given
      exact passes (same.1 ▸ other)
  | rejected f =>
    simp only [reduceCtorEq, false_and, iff_false]
    split <;> simp
  | aborted f => simp

@[simp] theorem rejects_satisfying {p : Reader α} {test : α → Bool} {tokens : List String}
    {t : List Char} : (p.satisfying test tokens).Rejects t ↔
      p.Rejects t ∨ ∃ a v, p.Takes t a v ∧ test a = false := by
  simp only [Takes, Rejects, satisfying]
  cases first : (p (.ofList t)).outcome with
  | accepted b rest =>
    simp only [Outcome.accepted.injEq, reduceCtorEq, exists_false, false_or]
    by_cases passes : test b = true
    · simp only [passes, if_true, reduceCtorEq, exists_false, false_iff]
      intro given
      obtain ⟨a, _, ⟨same, _⟩, fails⟩ := given
      rw [← same, passes] at fails
      cases fails
    · simp only [passes, Bool.false_eq_true, if_false, Outcome.rejected.injEq, exists_eq', true_iff]
      exact ⟨b, rest.chars, ⟨rfl, rest.ofList_chars.symm⟩, Bool.not_eq_true _ ▸ passes⟩
  | rejected f =>
    simp only [Outcome.rejected.injEq, exists_eq', true_or, iff_true]
    split <;> exact ⟨_, rfl⟩
  | aborted f => simp

@[simp] theorem takes_cut {commits : Bool} {p : Reader α} {t v : List Char} {a : α} :
    (cut commits p).Takes t a v ↔ p.Takes t a v := by
  simp only [Takes, cut, Outcome.fail]
  cases first : (p (.ofList t)).outcome <;> cases commits <;> simp

@[simp] theorem takes_resolve {commits : Bool} {p : Reader α} {f : α → Except Violation β}
    {t v : List Char} {b : β} :
    (resolve commits p f).Takes t b v ↔ ∃ a, p.Takes t a v ∧ f a = .ok b := by
  simp only [Takes, resolve]
  cases first : (p (.ofList t)).outcome with
  | accepted a rest =>
    simp only [Outcome.accepted.injEq]
    cases value : f a with
    | ok c =>
      simp only [Outcome.accepted.injEq]
      constructor
      · intro given
        obtain ⟨same, place⟩ := given
        exact ⟨a, ⟨rfl, place⟩, by rw [value, same]⟩
      · intro given
        obtain ⟨_, ⟨same, place⟩, other⟩ := given
        rw [← same, value] at other
        injection other with other
        exact ⟨other, place⟩
    | error e =>
      have fails : (Outcome.fail commits ⟨.ofList t, .violation e⟩ : Outcome β) ≠ .accepted b (.ofList v) := by
        cases commits <;> simp [Outcome.fail]
      simp only [fails, false_iff]
      intro given
      obtain ⟨_, ⟨same, _⟩, other⟩ := given
      rw [← same, value] at other
      cases other
  | rejected f => simp
  | aborted f => simp

theorem Rejects.resolve {commits : Bool} {p : Reader α} {f : α → Except Violation β} {t : List Char}
    (rejects : p.Rejects t) : (resolve commits p f).Rejects t := by
  obtain ⟨g, rejected⟩ := rejects
  exact ⟨g, by simp [Reader.resolve, rejected]⟩

@[simp] theorem takes_recorded {p : Reader α} {t v : List Char} {a : α} :
    p.recorded.Takes t a v ↔ p.Takes t a v := by
  simp only [Takes, recorded]
  cases first : (p (.ofList t)).outcome <;> simp

@[simp] theorem rejects_recorded {p : Reader α} {t : List Char} :
    p.recorded.Rejects t ↔ p.Rejects t := by
  simp only [Rejects, recorded]
  cases first : (p (.ofList t)).outcome <;> simp

/-- What a choice between two readers inherits from them, a choice between more inherits from them all. -/
theorem firstOf_of_forall {P : Reader α → Prop} (orElse : ∀ {p q}, P p → P q → P (p.orElse q))
    {p : Reader α} {ps : List (Reader α)} (parts : ∀ q ∈ p :: ps, P q) : P (firstOf p ps) := by
  induction ps generalizing p with
  | nil => exact parts p List.mem_cons_self
  | cons x xs ih =>
    simp only [List.forall_mem_cons] at parts
    obtain ⟨first, second, others⟩ := parts
    exact ih (List.forall_mem_cons.mpr ⟨orElse first second, others⟩)

/-- What a choice between two readers can only have from one of them, a choice between more has from one
of them. -/
theorem exists_of_firstOf {P : Reader α → Prop} (orElse : ∀ {p q}, P (p.orElse q) → P p ∨ P q)
    {p : Reader α} {ps : List (Reader α)} (whole : P (firstOf p ps)) : ∃ q ∈ p :: ps, P q := by
  induction ps generalizing p with
  | nil => exact ⟨p, List.mem_cons_self, whole⟩
  | cons x xs ih =>
    obtain ⟨q, member, part⟩ := ih whole
    obtain same | member := List.mem_cons.mp member
    · rw [same] at part
      obtain first | second := orElse part
      · exact ⟨p, List.mem_cons_self, first⟩
      · exact ⟨x, List.mem_cons_of_mem p List.mem_cons_self, second⟩
    · exact ⟨q, List.mem_cons_of_mem p (List.mem_cons_of_mem x member), part⟩

/-- What a choice between two readers can only have from both of them, a choice between more has from all
of them. -/
theorem forall_of_firstOf {P : Reader α → Prop} (orElse : ∀ {p q}, P (p.orElse q) → P p ∧ P q)
    {p : Reader α} {ps : List (Reader α)} (whole : P (firstOf p ps)) : ∀ q ∈ p :: ps, P q := by
  induction ps generalizing p with
  | nil => exact List.forall_mem_singleton.mpr whole
  | cons x xs ih =>
    obtain ⟨both, others⟩ := List.forall_mem_cons.mp (ih whole)
    obtain ⟨first, second⟩ := orElse both
    exact List.forall_mem_cons.mpr ⟨first, List.forall_mem_cons.mpr ⟨second, others⟩⟩

/-- What is taken is taken by one of the readers. -/
theorem exists_of_takes_firstOf {p : Reader α} {ps : List (Reader α)} {t v : List Char} {a : α}
    (takes : (firstOf p ps).Takes t a v) : ∃ q ∈ p :: ps, q.Takes t a v :=
  exists_of_firstOf (fun takes => (takes_orElse.mp takes).imp_right And.right) takes

theorem rejects_firstOf {p : Reader α} {ps : List (Reader α)} {t : List Char}
    (rejects : ∀ q ∈ p :: ps, q.Rejects t) : (firstOf p ps).Rejects t :=
  firstOf_of_forall (P := fun q => q.Rejects t)
    (fun first second => rejects_orElse.mpr ⟨first, second⟩) rejects

/-- If the readers do not disagree, their order does not matter. -/
theorem takes_firstOf {p : Reader α} {ps : List (Reader α)} {t v : List Char} {a : α}
    (agree : ∀ q ∈ p :: ps, q.Takes t a v ∨ q.Rejects t) (takes : ∃ q ∈ p :: ps, q.Takes t a v) :
    (firstOf p ps).Takes t a v := by
  induction ps generalizing p with
  | nil =>
    obtain ⟨q, member, takes⟩ := takes
    exact List.mem_singleton.mp member ▸ takes
  | cons x xs ih =>
    simp only [List.mem_cons, forall_eq_or_imp, exists_eq_or_imp] at agree takes
    apply ih
    · intro q member
      obtain same | member := List.mem_cons.mp member
      · rw [same, takes_orElse, rejects_orElse]
        obtain first | first := agree.1
        · exact .inl (.inl first)
        · exact agree.2.1.imp (fun second => .inr ⟨first, second⟩) (fun second => ⟨first, second⟩)
      · exact agree.2.2 q member
    · obtain first | second | ⟨q, member, later⟩ := takes
      · exact ⟨_, List.mem_cons_self, takes_orElse.mpr (.inl first)⟩
      · refine ⟨_, List.mem_cons_self, takes_orElse.mpr ?_⟩
        exact agree.1.imp id fun first => ⟨first, second⟩
      · exact ⟨q, List.mem_cons_of_mem _ member, later⟩

/-- What a choice between two readers has from the first, or from the second where the first has given
way, a choice between more has from any of them where all before it have given way. -/
theorem firstOf_after {P R : Reader α → Prop} (first : ∀ {p q}, P p → P (p.orElse q))
    (second : ∀ {p q}, R p → P q → P (p.orElse q)) (neither : ∀ {p q}, R p → R q → R (p.orElse q))
    {p q : Reader α} {ps before after : List (Reader α)} (order : p :: ps = before ++ q :: after)
    (gives : ∀ x ∈ before, R x) (part : P q) : P (firstOf p ps) := by
  induction ps generalizing p q before after with
  | nil =>
    cases before with
    | nil =>
      cases order
      exact part
    | cons x before =>
      injection order with _ none
      cases before <;> cases none
  | cons x xs ih =>
    have none : ∀ r ∈ ([] : List (Reader α)), R r := fun _ member => by cases member
    match before with
    | [] =>
      cases order
      have order : p.orElse x :: xs = [] ++ p.orElse x :: xs := rfl
      exact ih order none (first part)
    | [y] =>
      cases order
      have order : p.orElse x :: xs = [] ++ p.orElse x :: xs := rfl
      exact ih order none (second (gives p List.mem_cons_self) part)
    | y :: z :: before =>
      cases order
      have order : p.orElse x :: (before ++ q :: after) = (p.orElse x :: before) ++ q :: after := rfl
      simp only [List.mem_cons, forall_eq_or_imp] at gives
      refine ih order (fun r member => ?_) part
      obtain same | member := List.mem_cons.mp member
      · exact same ▸ neither gives.1 gives.2.1
      · exact gives.2.2 r member

/-- A reader has its turn when those before it have rejected. -/
theorem takes_firstOf_after {p q : Reader α} {ps before after : List (Reader α)} {t v : List Char}
    {a : α} (order : p :: ps = before ++ q :: after) (rejects : ∀ x ∈ before, x.Rejects t)
    (takes : q.Takes t a v) : (firstOf p ps).Takes t a v :=
  firstOf_after (P := fun p => p.Takes t a v) (R := fun p => p.Rejects t)
    (fun first => takes_orElse.mpr (.inl first))
    (fun first second => takes_orElse.mpr (.inr ⟨first, second⟩))
    (fun first second => rejects_orElse.mpr ⟨first, second⟩) order rejects takes

@[simp] theorem takes_guarded {enabled : Bool} {p : Reader α} {t v : List Char} {a : α} :
    (guarded enabled p).Takes t a v ↔ enabled = true ∧ p.Takes t a v := by
  cases enabled <;> simp [guarded, Takes, reject]

theorem rejects_guarded {enabled : Bool} {p : Reader α} {t : List Char} (rejects : p.Rejects t) :
    (guarded enabled p).Rejects t := by
  cases enabled with
  | false => exact ⟨_, rfl⟩
  | true => exact rejects

@[simp] theorem takes_token {text : String} {t v : List Char} {a : Unit} :
    (token text).Takes t a v ↔ t = text.toList ++ v := by
  simp only [Takes, token, List.isPrefixOf_iff_prefix, Unread.chars_ofList]
  constructor
  · intro takes
    split at takes
    · rename_i front
      obtain ⟨u, same⟩ := front
      injection takes with _ rest
      rw [← same, ← String.length_toList, Unread.drop_ofList, List.drop_left] at rest
      rw [← same, ofList_injective rest]
    · cases takes
  · intro same
    rw [if_pos ⟨v, same.symm⟩, same, ← String.length_toList, Unread.drop_ofList, List.drop_left]
    rfl

theorem rejects_token {text : String} {t : List Char} :
    (token text).Rejects t ↔ ¬ text.toList <+: t := by
  simp only [Rejects, token, List.isPrefixOf_iff_prefix, Unread.chars_ofList]
  split
  · rename_i front
    simp [front, accept]
  · rename_i other
    simp [other, reject]

@[simp] theorem takes_anyChar {t v : List Char} {c : Char} :
    anyChar.Takes t c v ↔ t = c :: v := by
  cases t with
  | nil => simp [Takes, anyChar, reject]
  | cons d t =>
    simp only [Takes, anyChar, Unread.chars_ofList, accept, Unread.drop_ofList, List.drop_one,
      List.tail_cons, Outcome.accepted.injEq, List.cons.injEq]
    exact and_congr_right fun _ => ⟨ofList_injective, congrArg _⟩

@[simp] theorem rejects_anyChar {t : List Char} : anyChar.Rejects t ↔ t = [] := by
  cases t <;> simp [Rejects, anyChar, reject, accept]

@[simp] theorem takes_oneOf {chars t v : List Char} {c : Char} :
    (oneOf chars).Takes t c v ↔ t = c :: v ∧ c ∈ chars := by
  cases t with
  | nil => simp [Takes, oneOf, reject]
  | cons d t =>
    simp only [Takes, oneOf, Unread.chars_ofList, List.cons.injEq]
    split
    · rename_i member
      simp only [accept, Unread.drop_ofList, List.drop_one, List.tail_cons, Outcome.accepted.injEq]
      constructor
      · intro given
        obtain ⟨same, rest⟩ := given
        exact ⟨⟨same, ofList_injective rest⟩, same ▸ member⟩
      · intro given
        obtain ⟨⟨same, rest⟩, _⟩ := given
        exact ⟨same, by rw [rest]⟩
    · rename_i absent
      simp only [reject, reduceCtorEq, false_iff]
      intro given
      obtain ⟨⟨same, _⟩, member⟩ := given
      exact absent (same ▸ member)

theorem rejects_oneOf {chars t : List Char} :
    (oneOf chars).Rejects t ↔ ∀ c ∈ t.head?, c ∉ chars := by
  cases t with
  | nil => simp [Rejects, oneOf, reject]
  | cons d t =>
    simp only [Rejects, oneOf, Unread.chars_ofList, List.head?_cons, Option.mem_some_iff,
      forall_eq']
    split
    · rename_i member
      simp [accept, member]
    · rename_i absent
      simp [reject, absent]

@[simp] theorem takes_atEnd {t v : List Char} {a : Unit} : atEnd.Takes t a v ↔ t = [] ∧ v = [] := by
  cases t with
  | nil =>
    simp only [Takes, atEnd, Unread.chars_ofList, accept, Outcome.accepted.injEq, true_and]
    exact ⟨fun same => (ofList_injective same).symm, fun same => by rw [same]⟩
  | cons c t => simp [Takes, atEnd, reject]

@[simp] theorem takes_delimited {commits : Bool} {opening closing : String} {p : Reader α}
    {t v : List Char} {a : α} : (delimited commits opening p closing).Takes t a v ↔
      ∃ u, t = opening.toList ++ u ∧ p.Takes u a (closing.toList ++ v) := by
  simp [delimited]

theorem rejects_delimited {commits : Bool} {opening closing : String} {p : Reader α}
    {t : List Char} (other : ¬ opening.toList <+: t) :
    (delimited commits opening p closing).Rejects t :=
  rejects_skipThen.mpr (.inl (rejects_token.mpr other))

@[simp] theorem takes_enclosed {s : Settings} {opening closing : String} {inner : Option (Reader α)}
    {t v : List Char} {a : α} : (enclosed s opening inner closing).Takes t a v ↔
      ∃ p ∈ inner, ∃ u, t = opening.toList ++ u ∧ p.Takes u a (closing.toList ++ v) := by
  cases inner <;> simp [enclosed]

theorem rejects_enclosed {s : Settings} {opening closing : String} {inner : Option (Reader α)}
    {t : List Char} (other : ¬ opening.toList <+: t) :
    (enclosed s opening inner closing).Rejects t := by
  cases inner with
  | none => exact (rejects_token.mpr other).resolve
  | some p => exact rejects_delimited other

end SchemaRegex.Pattern.Reader

import SchemaRegex.Proofs.Pattern.Taking

/-!
# Readers of characters

A run of characters ends where the next one fails the test. Readers that only look at characters
never abort, so they reject whatever they do not take (`Recovers`).
-/

namespace SchemaRegex.Pattern.Reader

variable {α β : Type}

/-- Characters that pass a test are taken as long as there are any. -/
theorem takes_many_satisfying {test : Char → Bool} {tokens : List String} {t v cs : List Char} :
    Takes (many (anyChar.satisfying test tokens)) t cs v ↔
      t = cs ++ v ∧ (∀ c ∈ cs, test c = true) ∧ ∀ c ∈ v.head?, test c = false := by
  induction cs generalizing t with
  | nil =>
    rw [takes_many_nil, rejects_satisfying, rejects_anyChar]
    constructor
    · intro given
      obtain ⟨stops, same⟩ := given
      subst same
      refine ⟨rfl, fun c member => absurd member List.not_mem_nil, fun c head => ?_⟩
      obtain none | ⟨d, u, more, fails⟩ := stops
      · subst none
        cases head
      · rw [takes_anyChar] at more
        subst more
        cases head
        exact fails
    · intro given
      obtain ⟨same, _, stops⟩ := given
      rw [List.nil_append] at same
      subst same
      refine ⟨?_, rfl⟩
      cases t with
      | nil => exact .inl rfl
      | cons c t => exact .inr ⟨c, t, takes_anyChar.mpr rfl, stops c rfl⟩
  | cons c cs ih =>
    simp only [takes_many_cons, takes_satisfying, takes_anyChar, ih]
    constructor
    · intro given
      obtain ⟨u, ⟨same, passes⟩, _, more, all, stops⟩ := given
      refine ⟨by rw [same, more, List.cons_append], ?_, stops⟩
      intro d member
      obtain same | member := List.mem_cons.mp member
      · exact same ▸ passes
      · exact all d member
    · intro given
      obtain ⟨same, all, stops⟩ := given
      refine ⟨cs ++ v, ⟨same, all c List.mem_cons_self⟩, ?_, rfl, ?_, stops⟩
      · rw [same]
        exact Nat.lt_succ_self _
      · exact fun d member => all d (List.mem_cons_of_mem c member)

theorem take_front (w v : List Char) : (w ++ v).take ((w ++ v).length - v.length) = w := by
  simp

theorem takes_consumed_satisfying {test : Char → Bool} {tokens : List String} {t v w : List Char} :
    (consumed (anyChar.satisfying test tokens).many1).Takes t w v ↔
      t = w ++ v ∧ w ≠ [] ∧ (∀ c ∈ w, test c = true) ∧ ∀ c ∈ v.head?, test c = false := by
  simp only [takes_consumed, takes_many1, takes_many_satisfying, takes_satisfying, takes_anyChar]
  constructor
  · intro given
    obtain ⟨⟨_, c, cs, _, _, ⟨first, passes⟩, rest, all, stops⟩, text⟩ := given
    subst first rest
    have read : w = c :: cs := text.trans (take_front (c :: cs) v)
    rw [read]
    refine ⟨rfl, List.cons_ne_nil c cs, ?_, stops⟩
    intro d member
    obtain same | member := List.mem_cons.mp member
    · exact same ▸ passes
    · exact all d member
  · intro given
    obtain ⟨same, nonempty, all, stops⟩ := given
    refine ⟨?_, by rw [same, take_front]⟩
    cases w with
    | nil => contradiction
    | cons c cs => exact ⟨c :: cs, c, cs, rfl, cs ++ v, ⟨same, all c List.mem_cons_self⟩, rfl,
        fun d member => all d (List.mem_cons_of_mem c member), stops⟩

def Recovers (p : Reader α) : Prop := ∀ t, p.Rejects t ∨ ∃ a v, p.Takes t a v

theorem Recovers.rejects_iff {p : Reader α} (recovers : p.Recovers) {t : List Char} :
    p.Rejects t ↔ ∀ a v, ¬ p.Takes t a v := by
  constructor
  · intro rejects a v
    exact rejects.not_takes
  · intro never
    obtain rejects | ⟨a, v, takes⟩ := recovers t
    · exact rejects
    · exact absurd takes (never a v)

theorem recovers_token (text : String) : (token text).Recovers := by
  intro t
  by_cases front : text.toList <+: t
  · obtain ⟨v, same⟩ := front
    exact .inr ⟨(), v, takes_token.mpr same.symm⟩
  · exact .inl (rejects_token.mpr front)

theorem recovers_anyChar : anyChar.Recovers := by
  intro t
  cases t with
  | nil => exact .inl (rejects_anyChar.mpr rfl)
  | cons c v => exact .inr ⟨c, v, takes_anyChar.mpr rfl⟩

theorem recovers_oneOf (chars : List Char) : (oneOf chars).Recovers := by
  intro t
  cases t with
  | nil => exact .inl (rejects_oneOf.mpr fun c head => by cases head)
  | cons c v =>
    by_cases member : c ∈ chars
    · exact .inr ⟨c, v, takes_oneOf.mpr ⟨rfl, member⟩⟩
    · refine .inl (rejects_oneOf.mpr fun d head => ?_)
      cases head
      exact member

theorem Recovers.satisfying {p : Reader α} (recovers : p.Recovers) (test : α → Bool)
    (tokens : List String) : (p.satisfying test tokens).Recovers := by
  intro t
  obtain rejects | ⟨a, v, takes⟩ := recovers t
  · exact .inl (rejects_satisfying.mpr (.inl rejects))
  · cases passes : test a with
    | true => exact .inr ⟨a, v, takes_satisfying.mpr ⟨takes, passes⟩⟩
    | false => exact .inl (rejects_satisfying.mpr (.inr ⟨a, v, takes, passes⟩))

theorem Recovers.andThen {p : Reader α} {next : α → Reader β} (first : p.Recovers)
    (second : ∀ a, (next a).Recovers) : (p.andThen next).Recovers := by
  intro t
  obtain rejects | ⟨a, u, takes⟩ := first t
  · exact .inl (rejects_andThen.mpr (.inl rejects))
  · obtain rejects | ⟨b, v, more⟩ := second a u
    · exact .inl (rejects_andThen.mpr (.inr ⟨a, u, takes, rejects⟩))
    · exact .inr ⟨b, v, takes_andThen.mpr ⟨a, u, takes, more⟩⟩

theorem Recovers.map {p : Reader α} (recovers : p.Recovers) (f : α → β) : (p.map f).Recovers :=
  recovers.andThen fun a t => .inr ⟨f a, t, takes_accept.mpr ⟨rfl, rfl⟩⟩

theorem Recovers.orElse {p q : Reader α} (first : p.Recovers) (second : q.Recovers) :
    (p.orElse q).Recovers := by
  intro t
  obtain rejects | ⟨a, v, takes⟩ := first t
  · obtain also | ⟨a, v, takes⟩ := second t
    · exact .inl (rejects_orElse.mpr ⟨rejects, also⟩)
    · exact .inr ⟨a, v, takes_orElse.mpr (.inr ⟨rejects, takes⟩)⟩
  · exact .inr ⟨a, v, takes_orElse.mpr (.inl takes)⟩

theorem Recovers.peek {p : Reader α} (recovers : p.Recovers) : p.peek.Recovers := by
  intro t
  obtain rejects | ⟨a, v, takes⟩ := recovers t
  · exact .inl (rejects_peek.mpr rejects)
  · exact .inr ⟨a, t, takes_peek.mpr ⟨⟨v, takes⟩, rfl⟩⟩

theorem Recovers.notAhead {p : Reader α} (recovers : p.Recovers) (tokens : List String) :
    (p.notAhead tokens).Recovers := by
  intro t
  obtain rejects | ⟨a, v, takes⟩ := recovers t
  · exact .inr ⟨(), t, takes_notAhead.mpr ⟨rejects, rfl⟩⟩
  · exact .inl (rejects_notAhead.mpr ⟨a, v, takes⟩)

end SchemaRegex.Pattern.Reader

import SchemaRegex.Proofs.Unicode.Stretches

/-!
# Runs of alternating entries

What an alternating entry was depends on its place in the run of such entries: an upper case letter at
even places and a lower case one at odd places. The marking ends a run where the next one could start in
the wrong place, so this holds of a run as a whole, however often the marking ended and started in it
(`marking_is_reversible`). What is marked for sure is a lower case letter between two upper case ones.
-/

namespace SchemaRegex.Unicode

private theorem getElem?_unmark (odd : Bool) (kinds : List RunKind) (i : Nat) :
    (unmark odd kinds)[i]? = kinds[i]?.map fun kind =>
      if kind = .alternating then letterInTurn (oddAfter odd (kinds.take i)) else kind := by
  induction kinds generalizing odd i with
  | nil => simp [unmark]
  | cons kind kinds ih =>
    cases i with
    | zero => cases kind <;> simp [unmark, oddAfter]
    | succ i => cases kind <;> simp [unmark, oddAfter, ih]

/-- Behind an entry that is not alternating a run starts anew. -/
theorem oddAfter_of_getLast? {kinds : List RunKind} (ends : ∀ k ∈ kinds.getLast?, k ≠ .alternating) :
    oddAfter false kinds = false := by
  rcases List.eq_nil_or_concat kinds with none | ⟨front, last, same⟩
  · rw [none]
    rfl
  · subst same
    rw [List.concat_eq_append] at ends ⊢
    rw [oddAfter_append]
    exact oddAfter_cons (ends last (by simp)) _ []

private theorem oddAfter_alternating {kinds : List RunKind} (all : ∀ k ∈ kinds, k = .alternating)
    (odd : Bool) : oddAfter odd kinds = (odd ^^ decide (kinds.length % 2 = 1)) := by
  induction kinds generalizing odd with
  | nil => simp [oddAfter]
  | cons kind kinds ih =>
    rw [List.forall_mem_cons] at all
    obtain ⟨first, others⟩ := all
    subst first
    rw [oddAfter, ih others, List.length_cons]
    rcases Nat.mod_two_eq_zero_or_one kinds.length with even | uneven
    · simp [even, Nat.add_mod]
    · simp [uneven, Nat.add_mod]

namespace Marking

inductive Steps (m : Marking) (entry : Entry) : Marking → Prop
  | keeps (begins : ∀ f s, m.turn = .outside → m.first = some f → m.second = some s →
      f.kind = letterInTurn false → s.kind = letterInTurn true → entry.kind ≠ letterInTurn false)
    (lower : m.turn = .lower → entry.kind ≠ letterInTurn true)
    (upper : m.turn = .upper → entry.kind ≠ letterInTurn false) : Steps m entry (m.shift entry .outside)
  | begins {f s : Entry} (turn : m.turn = .outside) (first : m.first = some f)
    (second : m.second = some s) (upper : f.kind = letterInTurn false)
    (lower : s.kind = letterInTurn true) (third : entry.kind = letterInTurn false) :
    Steps m entry ({ m with
      first := some (f.withKind .alternating)
      second := some (s.withKind .alternating) }.shift (entry.withKind .alternating) .lower)
  | lower (turn : m.turn = .lower) (due : entry.kind = letterInTurn true) :
    Steps m entry (m.shift (entry.withKind .alternating) .upper)
  | upper (turn : m.turn = .upper) (due : entry.kind = letterInTurn false) :
    Steps m entry (m.shift (entry.withKind .alternating) .lower)
  | undoes (turn : m.turn = .lower) (doubled : entry.kind = letterInTurn false) :
    Steps m entry ({ m with second := m.second.map (Entry.withKind · (letterInTurn false)) }.shift entry
      .outside)

private theorem steps_step (m : Marking) (entry : Entry) : m.Steps entry (m.step entry) := by
  cases turn : m.turn with
  | outside =>
    have keeps (apart : ∀ f s, m.first = some f → m.second = some s → f.kind = letterInTurn false →
        s.kind = letterInTurn true → entry.kind ≠ letterInTurn false) :
        m.Steps entry (m.shift entry .outside) := by
      apply Steps.keeps
      · exact fun f s _ => apart f s
      · intro lower
        cases turn.symm.trans lower
      · intro upper
        cases turn.symm.trans upper
    simp only [step, turn]
    split
    · rename_i f s first second
      split
      · rename_i letters
        exact .begins turn first second letters.1 letters.2.1 letters.2.2
      · rename_i other
        apply keeps
        intro g r same alike upper lower third
        cases first.symm.trans same
        cases second.symm.trans alike
        exact other ⟨upper, lower, third⟩
    · rename_i few
      apply keeps
      intro f s first second
      exact absurd second (few f s first)
  | lower =>
    simp only [step, turn]
    split
    · rename_i due
      exact .lower turn due
    · rename_i other
      split
      · rename_i doubled
        exact .undoes turn doubled
      · apply Steps.keeps
        · intro f s outside
          cases turn.symm.trans outside
        · exact fun _ => other
        · intro upper
          cases turn.symm.trans upper
  | upper =>
    simp only [step, turn]
    split
    · rename_i due
      exact .upper turn due
    · rename_i other
      apply Steps.keeps
      · intro f s outside
        cases turn.symm.trans outside
      · intro lower
        cases turn.symm.trans lower
      · exact fun _ => other

variable {m n : Marking}

/-- A step leaves what is finished as it is. -/
theorem Steps.exists_finished {entry : Entry} (steps : m.Steps entry n) :
    ∃ more, n.finished.reverse = m.finished.reverse ++ more := by
  cases steps <;> exact ⟨_, reverse_finished_shift _ _ _⟩

private theorem Steps.exists_second {entry : Entry} (steps : m.Steps entry n) : ∃ s, n.second = some s := by
  cases steps <;> exact ⟨_, rfl⟩

private theorem exists_entries_foldl (m : Marking) (entries : List Entry) :
    ∃ more, (entries.foldl step m).entries = m.finished.reverse ++ more := by
  induction entries generalizing m with
  | nil => exact ⟨_, rfl⟩
  | cons entry entries ih =>
    obtain ⟨one, step⟩ := (m.steps_step entry).exists_finished
    obtain ⟨more, all⟩ := ih (m.step entry)
    exact ⟨one ++ more, by rw [List.foldl_cons, all, step, List.append_assoc]⟩

/-- An alternating entry is final once another entry is behind it. -/
theorem Steps.finished_eq {entry f : Entry} (steps : m.Steps entry n) (first : m.first = some f)
    (kind : f.kind = .alternating) : n.finished.reverse = m.front := by
  cases steps with
  | begins turn same second upper lower third =>
    cases first.symm.trans same
    cases kind.symm.trans upper
  | keeps | lower | upper | undoes => exact reverse_finished_shift _ _ _

private theorem exists_front_foldl {f : Entry} (first : m.first = some f) (kind : f.kind = .alternating)
    (entries : List Entry) : ∃ more, (entries.foldl step m).entries = m.front ++ more := by
  cases entries with
  | nil => exact ⟨m.second.toList, m.entries_eq⟩
  | cons entry entries =>
    obtain ⟨more, all⟩ := (m.step entry).exists_entries_foldl entries
    exact ⟨more, by rw [List.foldl_cons, all, (m.steps_step entry).finished_eq first kind]⟩

/-- Behind an upper case letter a lower case one is due, or the letter may start a run. -/
private def AfterUpper (m : Marking) : Prop :=
  m.turn = .lower ∨ m.turn = .outside ∧ ∃ u, m.second = some u ∧ u.kind = letterInTurn false

/-- The lower case letter behind it is alternating, or becomes so with the next upper case letter. -/
private def AfterLower (m : Marking) : Prop :=
  (m.turn = .upper ∧ ∃ l, m.second = some l ∧ l.kind = .alternating) ∨
    m.turn = .outside ∧ ∃ u l, m.first = some u ∧ m.second = some l ∧ u.kind = letterInTurn false ∧
      l.kind = letterInTurn true

private theorem Steps.afterUpper {u : Entry} (steps : m.Steps u n) (upper : u.kind = letterInTurn false) :
    n.AfterUpper := by
  cases steps with
  | keeps | undoes => exact .inr ⟨rfl, u, rfl, upper⟩
  | begins | upper => exact .inl rfl
  | lower turn due => cases upper.symm.trans due

private theorem Steps.afterLower {l : Entry} (steps : m.Steps l n) (given : m.AfterUpper)
    (lower : l.kind = letterInTurn true) : n.AfterLower := by
  cases steps with
  | keeps _ other =>
    rcases given with turn | ⟨_, u, second, upper⟩
    · exact absurd lower (other turn)
    · exact .inr ⟨rfl, u, l, second, rfl, upper, lower⟩
  | begins _ _ _ _ _ third => cases lower.symm.trans third
  | lower => exact .inl ⟨rfl, _, rfl, rfl⟩
  | upper _ due => cases lower.symm.trans due
  | undoes _ doubled => cases lower.symm.trans doubled

private theorem Steps.exists_first {v : Entry} (steps : m.Steps v n) (given : m.AfterLower)
    (upper : v.kind = letterInTurn false) : ∃ l, n.first = some l ∧ l.kind = .alternating := by
  cases steps with
  | keeps begins _ other =>
    rcases given with ⟨turn, _⟩ | ⟨turn, u, l, first, second, before, between⟩
    · exact absurd upper (other turn)
    · exact absurd upper (begins u l turn first second before between)
  | begins => exact ⟨_, rfl, rfl⟩
  | lower _ due => cases upper.symm.trans due
  | upper turn =>
    rcases given with ⟨_, l, second, kind⟩ | ⟨other, _⟩
    · exact ⟨l, second, kind⟩
    · cases turn.symm.trans other
  | undoes turn =>
    rcases given with ⟨other, _⟩ | ⟨other, _⟩
    · cases turn.symm.trans other
    · cases turn.symm.trans other

end Marking

private theorem entries_eq_of {es fs : List Entry} (codepoints : es.map (·.codepoint) = fs.map (·.codepoint))
    (kinds : kindsOf es = kindsOf fs) : es = fs := by
  induction es generalizing fs with
  | nil => exact (List.map_eq_nil_iff.mp kinds.symm).symm
  | cons e es ih =>
    cases fs with
    | nil => cases kinds
    | cons f fs =>
      obtain ⟨codepoint, codepoints⟩ := List.cons.inj codepoints
      obtain ⟨kind, kinds⟩ := List.cons.inj kinds
      rw [ih codepoints kinds]
      cases e
      cases f
      cases codepoint
      cases kind
      rfl

/-- What some entries are, as far as the marked ones tell, and where these are alternating. -/
structure Marks (given marked : List Entry) : Prop where
  length : marked.length = given.length
  codepoints : marked.map (·.codepoint) = given.map (·.codepoint)
  kept : ∀ (i : Nat) (e : Entry), marked[i]? = some e → e.kind ≠ .alternating → given[i]? = some e
  inTurn : ∀ front run back : List Entry, marked = front ++ run ++ back →
    (∀ e ∈ run, e.kind = .alternating) → (∀ e ∈ front.getLast?, e.kind ≠ .alternating) →
    ∀ i, i < run.length →
      given[front.length + i]?.map (·.kind) =
        some (.category (if i % 2 = 0 then .uppercaseLetter else .lowercaseLetter))
  between : ∀ (front back : List Entry) (u l v : Entry), given = front ++ [u, l, v] ++ back →
    u.kind = .category .uppercaseLetter → l.kind = .category .lowercaseLetter →
      v.kind = .category .uppercaseLetter →
        marked[front.length + 1]?.map (·.kind) = some .alternating

variable {entries : List Entry}

private theorem kind_before_marking (plain : ∀ entry ∈ entries, entry.kind ≠ .alternating) (i : Nat) :
    entries[i]?.map (·.kind) = (markAlternations entries)[i]?.map fun e =>
      if e.kind = .alternating then
        letterInTurn (oddAfter false (kindsOf ((markAlternations entries).take i)))
      else e.kind := by
  have kinds := (unmark_markAlternations plain).2
  rw [← List.getElem?_map, ← kindsOf, ← kinds, getElem?_unmark, kindsOf, kindsOf, List.getElem?_map,
    Option.map_map, List.map_take]
  rfl

private theorem kept_markAlternations (plain : ∀ entry ∈ entries, entry.kind ≠ .alternating) {i : Nat}
    {e : Entry} (marked : (markAlternations entries)[i]? = some e) (kind : e.kind ≠ .alternating) :
    entries[i]? = some e := by
  have kinds := kind_before_marking plain i
  have codepoints := congrArg (·[i]?) (unmark_markAlternations plain).1
  simp only [List.getElem?_map, marked, Option.map_some, if_neg kind] at kinds codepoints
  obtain ⟨f, given, sameKind⟩ := Option.map_eq_some_iff.mp kinds
  rw [given, Option.map_some, Option.some.injEq] at codepoints
  rw [given]
  cases e
  cases f
  cases codepoints
  cases sameKind
  rfl

private theorem inTurn_markAlternations (plain : ∀ entry ∈ entries, entry.kind ≠ .alternating)
    {front run back : List Entry} (marked : markAlternations entries = front ++ run ++ back)
    (alternating : ∀ e ∈ run, e.kind = .alternating)
    (starts : ∀ e ∈ front.getLast?, e.kind ≠ .alternating) {i : Nat} (inside : i < run.length) :
    entries[front.length + i]?.map (·.kind) =
      some (.category (if i % 2 = 0 then .uppercaseLetter else .lowercaseLetter)) := by
  have before : oddAfter false (kindsOf front) = false := by
    apply oddAfter_of_getLast?
    intro k last
    rw [kindsOf, List.getLast?_map] at last
    obtain ⟨e, last, same⟩ := Option.map_eq_some_iff.mp last
    exact same ▸ starts e last
  have parity : oddAfter false (kindsOf ((front ++ run ++ back).take (front.length + i))) =
      decide (i % 2 = 1) := by
    rw [List.append_assoc, List.take_length_add_append, List.take_append_of_le_length (by omega),
      kindsOf_append, oddAfter_append, before, oddAfter_alternating, Bool.false_xor, kindsOf,
      List.length_map, List.length_take, Nat.min_eq_left (by omega)]
    intro k member
    obtain ⟨e, member, same⟩ := List.mem_map.mp member
    exact same ▸ alternating e (List.mem_of_mem_take member)
  have here : (front ++ run ++ back)[front.length + i]? = some run[i] := by
    rw [List.append_assoc, List.getElem?_append_right (Nat.le_add_right _ _),
      Nat.add_sub_cancel_left, List.getElem?_append_left inside, List.getElem?_eq_getElem inside]
  rw [kind_before_marking plain, marked, here, parity, Option.map_some,
    if_pos (alternating _ (List.getElem_mem inside))]
  rcases Nat.mod_two_eq_zero_or_one i with even | uneven
  · simp [letterInTurn, even]
  · simp [letterInTurn, uneven]

private theorem between_markAlternations {front back : List Entry} {u l v : Entry}
    (plain : ∀ entry ∈ front ++ [u, l, v] ++ back, entry.kind ≠ .alternating)
    (first : u.kind = letterInTurn false) (second : l.kind = letterInTurn true)
    (third : v.kind = letterInTurn false) :
    (markAlternations (front ++ [u, l, v] ++ back))[front.length + 1]?.map (·.kind) =
      some .alternating := by
  let m := (front ++ [u, l, v]).foldl Marking.step .start
  have stands : m.Stands ([] ++ (front ++ [u, l, v])) :=
    stands_start.1.foldl stands_start.2 fun e member => plain e (List.mem_append_left back member)
  have letters : ∃ f s, m.first = some f ∧ f.kind = .alternating ∧ m.second = some s := by
    have begun := (Marking.steps_step (front.foldl Marking.step .start) u).afterUpper first
    have due := (Marking.steps_step _ l).afterLower begun second
    obtain ⟨f, found, kind⟩ := (Marking.steps_step _ v).exists_first due third
    obtain ⟨s, last⟩ := (Marking.steps_step _ v).exists_second
    simp only [m, List.foldl_append, List.foldl_cons, List.foldl_nil]
    exact ⟨f, s, found, kind, last⟩
  obtain ⟨f, s, found, kind, last⟩ := letters
  have place : m.finished.reverse.length = front.length + 1 := by
    have length := congrArg List.length stands.codepoints
    simp only [Marking.entries, found, last, List.length_map, List.length_append, Option.toList_some,
      List.length_cons, List.length_nil] at length
    omega
  obtain ⟨more, all⟩ := Marking.exists_front_foldl found kind back
  rw [markAlternations, List.foldl_append, all, Marking.front, found, ← place, List.append_assoc,
    List.getElem?_append_right (Nat.le_refl _), Nat.sub_self]
  exact congrArg some kind

/-- The marking of categories and gaps can be undone. The marked entries are as many as the given ones, at
the same codepoints, and those that are not alternating are unchanged; in a run of alternating ones the
letters at even places were upper case and those at odd places lower case. So no other entries are marked
the same. -/
theorem marking_is_reversible (plain : ∀ entry ∈ entries, entry.kind ≠ .alternating) :
    Marks entries (markAlternations entries) ∧
      ∀ others, (∀ entry ∈ others, entry.kind ≠ .alternating) →
        markAlternations others = markAlternations entries → others = entries := by
  have codepoints := (unmark_markAlternations plain).1
  refine ⟨⟨?_, codepoints, ?_, ?_, ?_⟩, ?_⟩
  · simpa using congrArg List.length codepoints
  · exact fun i e => kept_markAlternations plain
  · exact fun front run back marked alternating starts i =>
      inTurn_markAlternations plain marked alternating starts
  · intro front back u l v given first second third
    subst given
    exact between_markAlternations plain first second third
  · intro others otherPlain same
    obtain ⟨otherCodepoints, otherKinds⟩ := unmark_markAlternations otherPlain
    apply entries_eq_of
    · rw [← otherCodepoints, same, codepoints]
    · rw [← otherKinds, same, (unmark_markAlternations plain).2]

def doubledLetters : List Entry :=
  [⟨0, .gap⟩, ⟨1, .category .uppercaseLetter⟩, ⟨2, .category .lowercaseLetter⟩,
    ⟨3, .category .uppercaseLetter⟩, ⟨4, .category .uppercaseLetter⟩, ⟨5, .category .lowercaseLetter⟩,
    ⟨6, .category .uppercaseLetter⟩, ⟨7, .category .lowercaseLetter⟩, ⟨8, .category .otherLetter⟩]

/-- The doubled letter is marked first and then left out, so that it parts two runs. -/
theorem marking_is_reversible_doubledLetters :
    (∀ entry ∈ doubledLetters, entry.kind ≠ .alternating) ∧
      kindsOf (markAlternations doubledLetters) =
        [.gap, .alternating, .alternating, .category .uppercaseLetter, .alternating, .alternating,
          .alternating, .alternating, .category .otherLetter] ∧
      Marks doubledLetters (markAlternations doubledLetters) ∧
        ∀ others, (∀ entry ∈ others, entry.kind ≠ .alternating) →
          markAlternations others = markAlternations doubledLetters → others = doubledLetters :=
  ⟨by decide, by decide, marking_is_reversible (by decide)⟩

end SchemaRegex.Unicode

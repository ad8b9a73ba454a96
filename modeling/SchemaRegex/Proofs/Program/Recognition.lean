import SchemaRegex.Proofs.Program.Fragment

/-!
# The code of an expression recognizes its language

Quantifiers and branches, and then the whole tree (`recognizes_regex`). A bounded quantifier repeats
its atom and then makes the rest optional, so its bounds have to be in order.
-/

namespace SchemaRegex

/-- Some occurrences that may be left out are any smaller number of them. -/
theorem mem_one_add_pow {L : Language Nat} {n : Nat} {w : List Nat} :
    w ∈ (1 + L) ^ n ↔ ∃ k ≤ n, w ∈ L ^ k := by
  induction n generalizing w with
  | zero => simp
  | succ n ih =>
    rw [pow_succ', add_mul, one_mul, Language.mem_add, ih]
    constructor
    · intro inside
      obtain ⟨k, few, inside⟩ | inside := inside
      · exact ⟨k, by omega, inside⟩
      · obtain ⟨u, first, v, rest, same⟩ := Language.mem_mul.mp inside
        obtain ⟨k, few, rest⟩ := ih.mp rest
        refine ⟨k + 1, by omega, ?_⟩
        rw [pow_succ', ← same]
        exact Language.append_mem_mul first rest
    · intro given
      obtain ⟨k, few, inside⟩ := given
      cases k with
      | zero => exact .inl ⟨0, by omega, inside⟩
      | succ k =>
        rw [pow_succ'] at inside
        obtain ⟨u, first, v, rest, same⟩ := Language.mem_mul.mp inside
        rw [← same]
        exact .inr (Language.append_mem_mul first (ih.mpr ⟨k, by omega, rest⟩))

theorem bounded_powers {q : Quantifier} {max : Nat} (bound : q.max = some max)
    (ordered : q.Ordered) (L : Language Nat) :
    {w | ∃ k, q.Allows k ∧ w ∈ L ^ k} = L ^ q.min * (1 + L) ^ (max - q.min) := by
  have least : q.min ≤ max := ordered max bound
  apply Set.ext
  intro w
  constructor
  · intro given
    obtain ⟨k, ⟨lower, upper⟩, inside⟩ := given
    have most := upper max bound
    have sum : L ^ k = L ^ q.min * L ^ (k - q.min) := by
      rw [← pow_add, Nat.add_sub_cancel' lower]
    rw [sum] at inside
    obtain ⟨u, front, v, rest, same⟩ := Language.mem_mul.mp inside
    subst same
    exact Language.append_mem_mul front (mem_one_add_pow.mpr ⟨k - q.min, by omega, rest⟩)
  · intro inside
    obtain ⟨u, front, v, rest, same⟩ := Language.mem_mul.mp inside
    obtain ⟨k, few, rest⟩ := mem_one_add_pow.mp rest
    refine ⟨q.min + k, ⟨Nat.le_add_right _ _, fun most other => ?_⟩, ?_⟩
    · cases bound.symm.trans other
      omega
    · rw [pow_add, ← same]
      exact Language.append_mem_mul front rest

theorem unbounded_powers {q : Quantifier} (unbound : q.max = none) (L : Language Nat) :
    {w | ∃ k, q.Allows k ∧ w ∈ L ^ k} = L ^ q.min * KStar.kstar L := by
  apply Set.ext
  intro w
  rw [Language.kstar_eq_iSup_pow]
  constructor
  · intro given
    obtain ⟨k, ⟨lower, _⟩, inside⟩ := given
    have sum : L ^ k = L ^ q.min * L ^ (k - q.min) := by
      rw [← pow_add, Nat.add_sub_cancel' lower]
    rw [sum] at inside
    obtain ⟨u, front, v, rest, same⟩ := Language.mem_mul.mp inside
    subst same
    exact Language.append_mem_mul front (Language.mem_iSup.mpr ⟨k - q.min, rest⟩)
  · intro inside
    obtain ⟨u, front, v, rest, same⟩ := Language.mem_mul.mp inside
    obtain ⟨k, rest⟩ := Language.mem_iSup.mp rest
    refine ⟨q.min + k, ⟨Nat.le_add_right _ _, fun most other => ?_⟩, ?_⟩
    · rw [unbound] at other
      cases other
    · rw [pow_add, ← same]
      exact Language.append_mem_mul front rest

namespace Code

open Program

theorem Recognizes.quantified {c : Code} {L : Language Nat} (recognizes : Recognizes c L)
    {q : Quantifier} (ordered : q.Ordered) :
    Recognizes (.quantified q c) {w | ∃ k, q.Allows k ∧ w ∈ L ^ k} := by
  obtain ⟨min, max⟩ := q
  cases max with
  | some max =>
    rw [bounded_powers rfl ordered]
    exact (recognizes.repeated min).seq (recognizes.optional.repeated (max - min))
  | none =>
    rw [unbounded_powers rfl]
    cases min with
    | zero =>
      rw [pow_zero, one_mul]
      exact recognizes.star
    | succ n =>
      rw [pow_succ, mul_assoc]
      exact (recognizes.repeated n).seq recognizes.plus

structure RecognizesAny (cs : List Code) (L : Language Nat) : Prop where
  inner : ∀ e l, .accept ∉ joined e cs l
  leads : ∀ (p : Program) l e w, p.Has l (joined #[e] cs l) → w ∈ L →
    ∃ s ∈ starts cs l, p.Leads s w e
  cut : ∀ (p : Program) l e s n w b, p.Has l (joined #[e] cs l) → s ∈ starts cs l →
    p.Path n s w b → b < l ∨ l + (joined #[e] cs l).length ≤ b →
    ∃ k ≤ n, ∃ u v, w = u ++ v ∧ u ∈ L ∧ p.Path k e v b

theorem recognizesAny_none : RecognizesAny [] 0 where
  inner _ _ := List.not_mem_nil
  leads _ _ _ w _ inside := absurd inside (Language.notMem_zero w)
  cut _ _ _ _ _ _ _ _ start := absurd start List.not_mem_nil

theorem Recognizes.or {c : Code} {cs : List Code} {L M : Language Nat} (first : Recognizes c L)
    (others : RecognizesAny cs M) : RecognizesAny (c :: cs) (L + M) where
  inner e l := by simp [joined, Code.seq, one, first.inner, others.inner]
  leads p l e w has inside := by
    obtain ⟨hasFirst, hasRest⟩ := has_append.mp has
    obtain ⟨exit, hasOthers⟩ := has_cons.mp hasRest
    obtain inside | inside := inside
    · refine ⟨l, List.mem_cons_self, ?_⟩
      rw [← List.append_nil w]
      exact (first.leads p l w hasFirst inside).trans
        (leads_jump exit (by simp [Instruction.targets]) (leads_self p e))
    · obtain ⟨s, start, through⟩ := others.leads p _ e w hasOthers inside
      exact ⟨s, List.mem_cons_of_mem l start, through⟩
  cut p l e s n w b has start path outside := by
    obtain ⟨hasFirst, hasRest⟩ := has_append.mp has
    obtain ⟨exit, hasOthers⟩ := has_cons.mp hasRest
    simp only [joined, Code.seq, one, List.length_append, List.length_singleton] at outside hasOthers
    obtain here | there := List.mem_cons.mp start
    · subst here
      obtain ⟨k, fewer, u, v, same, inside, rest⟩ :=
        first.cut p s n w b hasFirst path (by omega)
      obtain ⟨j, further, t, target, behind⟩ := rest.next_jump exit (by omega)
      cases List.mem_singleton.mp target
      exact ⟨j, by omega, u, v, same, .inl inside, behind⟩
    · obtain ⟨k, fewer, u, v, same, inside, rest⟩ :=
        others.cut p _ e s n w b hasOthers there path (by omega)
      exact ⟨k, fewer, u, v, same, .inr inside, rest⟩

theorem RecognizesAny.choice {cs : List Code} {L : Language Nat} (any : RecognizesAny cs L) :
    Recognizes (.choice cs) L where
  inner l := by simp [Code.choice, any.inner]
  leads p l w has inside := by
    obtain ⟨fork, has⟩ := has_cons.mp has
    obtain ⟨s, start, through⟩ := any.leads p _ _ w has inside
    have place : l + (Code.choice cs l).length = l + 1 + (joined #[] cs (l + 1)).length := by
      rw [Code.choice, List.length_cons, length_joined _ #[]]
      omega
    rw [place]
    exact leads_jump fork start through
  cut p l n w b has path outside := by
    obtain ⟨fork, has⟩ := has_cons.mp has
    have place : l + (Code.choice cs l).length = l + 1 + (joined #[] cs (l + 1)).length := by
      rw [Code.choice, List.length_cons, length_joined _ #[]]
      omega
    rw [place] at outside ⊢
    obtain ⟨k, fewer, s, start, rest⟩ := path.next_jump fork (by omega)
    rw [length_joined #[] #[l + 1 + (joined #[] cs (l + 1)).length]] at outside
    obtain ⟨j, further, found⟩ := any.cut p _ _ s k w b has start rest (by omega)
    exact ⟨j, by omega, found⟩

end Code

open Code

mutual

private theorem recognizes_atom : (x : Atom) → x.Every (·.quantifier.Ordered) →
    Recognizes x.code x.language
  | .literal c, _ => by
    have same : (Atom.literal c).language =
        {w | ∃ d, (Instruction.literal c).takes d = true ∧ w = [d]} := by
      apply Set.ext
      intro w
      simp [Atom.language, Instruction.takes, eq_comm]
    rw [same]
    exact recognizes_one (.literal c) rfl Instruction.noConfusion
  | .set s, _ => by
    have same : (Atom.set s).language =
        {w | ∃ c, (Instruction.set s).takes c = true ∧ w = [c]} := by
      apply Set.ext
      intro w
      simp [Atom.language, Instruction.takes]
    rw [same]
    exact recognizes_one (.set s) rfl Instruction.noConfusion
  | .group r, ordered => recognizes_regex r ordered

private theorem recognizes_piece : (p : Piece) → p.Every (·.quantifier.Ordered) →
    Recognizes p.code p.language
  | ⟨atom, _⟩, ordered => (recognizes_atom atom ordered.2).quantified ordered.1

private theorem recognizes_pieces : (ps : List Piece) → PiecesEvery (·.quantifier.Ordered) ps →
    Recognizes (piecesCode ps) (piecesLanguage ps)
  | [], _ => recognizes_nothing
  | p :: ps, ordered => (recognizes_piece p ordered.1).seq (recognizes_pieces ps ordered.2)

private theorem recognizes_branch : (b : Branch) → b.Every (·.quantifier.Ordered) →
    Recognizes b.code b.language
  | ⟨pieces⟩, ordered => recognizes_pieces pieces ordered

private theorem recognizes_branches : (bs : List Branch) → BranchesEvery (·.quantifier.Ordered) bs →
    RecognizesAny (branchCodes bs) (branchesLanguage bs)
  | [], _ => recognizesAny_none
  | b :: bs, ordered => (recognizes_branch b ordered.1).or (recognizes_branches bs ordered.2)

theorem recognizes_regex : (r : Regex) → r.Ordered → Recognizes r.code r.language
  | ⟨branches⟩, ordered => (recognizes_branches branches ordered).choice

end

end SchemaRegex

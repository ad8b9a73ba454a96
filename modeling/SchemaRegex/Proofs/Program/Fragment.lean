import SchemaRegex.Proofs.Machine.Path
import SchemaRegex.Proofs.Pattern.Language
import SchemaRegex.Proofs.Program.Layout

/-!
# What a layout recognizes

A code recognizes a language if, wherever a program has the code, the paths through it take the words
of that language. Any path that starts with the code and ends outside of it is cut where it leaves
the code; the rest is no longer, which is what a loop needs (`Recognizes.star`, `Recognizes.plus`).
-/

namespace SchemaRegex

namespace Program

def Has (p : Program) (l : Nat) (code : List Instruction) : Prop :=
  ∀ i instr, code[i]? = some instr → p[l + i]? = some instr

theorem has_toArray (code : List Instruction) : Has code.toArray 0 code := by
  intro i instr found
  rw [Nat.zero_add, List.getElem?_toArray]
  exact found

theorem has_append {p : Program} {l : Nat} {code more : List Instruction} :
    p.Has l (code ++ more) ↔ p.Has l code ∧ p.Has (l + code.length) more := by
  constructor
  · intro has
    refine ⟨fun i instr found => has i instr ?_, fun i instr found => ?_⟩
    · rw [List.getElem?_append_left (List.getElem?_eq_some_iff.mp found).1]
      exact found
    · rw [Nat.add_assoc]
      apply has
      rw [List.getElem?_append_right (Nat.le_add_right _ _), Nat.add_sub_cancel_left]
      exact found
  · intro given i instr found
    obtain ⟨front, back⟩ := given
    by_cases inside : i < code.length
    · rw [List.getElem?_append_left inside] at found
      exact front i instr found
    · rw [List.getElem?_append_right (by omega)] at found
      have same : l + code.length + (i - code.length) = l + i := by omega
      rw [← same]
      exact back _ instr found

theorem has_cons {p : Program} {l : Nat} {instr : Instruction} {code : List Instruction} :
    p.Has l (instr :: code) ↔ p[l]? = some instr ∧ p.Has (l + 1) code := by
  rw [← List.singleton_append, has_append]
  constructor
  · intro given
    obtain ⟨first, rest⟩ := given
    exact ⟨first 0 instr rfl, rest⟩
  · intro given
    obtain ⟨found, rest⟩ := given
    refine ⟨fun i other same => ?_, rest⟩
    obtain ⟨place, same⟩ := List.getElem?_eq_some_iff.mp same
    cases Nat.lt_one_iff.mp place
    rw [← same]
    exact found

theorem Path.next {p : Program} {n a b : Nat} {w : List Nat} {instr : Instruction}
    (path : Path p n a w b) (found : p[a]? = some instr) (further : a ≠ b) :
    (∃ k t, n = k + 1 ∧ t ∈ instr.targets ∧ Path p k t w b) ∨
      (∃ k c v, n = k + 1 ∧ w = c :: v ∧ instr.takes c = true ∧ Path p k (a + 1) v b) := by
  cases path with
  | here => contradiction
  | @jump k _ t _ _ other place target rest =>
    cases found.symm.trans place
    exact .inl ⟨k, t, rfl, target, rest⟩
  | @take k _ c _ v other place takes rest =>
    cases found.symm.trans place
    exact .inr ⟨k, c, v, rfl, rfl, takes, rest⟩

theorem Path.next_jump {p : Program} {n a b : Nat} {w : List Nat} {targets : Array Nat}
    (path : Path p n a w b) (found : p[a]? = some (.jump targets)) (further : a ≠ b) :
    ∃ k, k < n ∧ ∃ t ∈ targets.toList, Path p k t w b := by
  obtain ⟨k, t, same, target, rest⟩ | ⟨k, c, v, same, taken, takes, rest⟩ := path.next found further
  · exact ⟨k, by omega, t, target, rest⟩
  · cases takes

theorem Path.stops {p : Program} {n a b : Nat} {w : List Nat} (path : Path p n a w b)
    (found : p[a]? = some .accept) : w = [] := by
  cases path with
  | here => rfl
  | jump place target =>
    cases found.symm.trans place
    cases target
  | take place takes =>
    cases found.symm.trans place
    cases takes

end Program

namespace Code

open Program Computability

/-- Where a program has the code, paths through it take the words of the language. -/
structure Recognizes (c : Code) (L : Language Nat) : Prop where
  inner : ∀ l, .accept ∉ c l
  leads : ∀ (p : Program) l w, p.Has l (c l) → w ∈ L → p.Leads l w (l + (c l).length)
  cut : ∀ (p : Program) l n w b, p.Has l (c l) → p.Path n l w b → b < l ∨ l + (c l).length ≤ b →
    ∃ k ≤ n, ∃ u v, w = u ++ v ∧ u ∈ L ∧ p.Path k (l + (c l).length) v b

theorem recognizes_nothing : Recognizes (fun _ => []) 1 where
  inner _ := List.not_mem_nil
  leads p l w _ inside := by
    cases inside
    exact leads_self p l
  cut p l n w b _ path _ := ⟨n, Nat.le_refl n, [], w, rfl, rfl, path⟩

theorem recognizes_one (instr : Instruction) (goesOn : instr.targets = [])
    (further : instr ≠ .accept) : Recognizes (.one instr) {w | ∃ c, instr.takes c = true ∧ w = [c]} where
  inner _ := by simpa [one] using further.symm
  leads p l w has inside := by
    obtain ⟨c, takes, same⟩ := inside
    subst same
    exact leads_take (has_cons.mp has).1 takes (leads_self p (l + 1))
  cut p l n w b has path outside := by
    have further : l ≠ b := by
      simp only [one, List.length_singleton] at outside
      omega
    obtain ⟨k, t, same, target, rest⟩ | ⟨k, c, v, same, taken, takes, rest⟩ :=
      path.next (has_cons.mp has).1 further
    · rw [goesOn] at target
      cases List.not_mem_nil target
    · exact ⟨k, by omega, [c], v, taken, ⟨c, takes, rfl⟩, rest⟩

theorem Recognizes.seq {c d : Code} {L M : Language Nat} (first : Recognizes c L)
    (second : Recognizes d M) : Recognizes (c.seq d) (L * M) where
  inner l := by simp [Code.seq, first.inner, second.inner]
  leads p l w has inside := by
    obtain ⟨u, front, v, back, same⟩ := Language.mem_mul.mp inside
    obtain ⟨hasFirst, hasSecond⟩ := has_append.mp has
    rw [← same, Code.seq, List.length_append, ← Nat.add_assoc]
    exact (first.leads p l u hasFirst front).trans (second.leads p _ v hasSecond back)
  cut p l n w b has path outside := by
    obtain ⟨hasFirst, hasSecond⟩ := has_append.mp has
    simp only [Code.seq, List.length_append] at outside ⊢
    obtain ⟨k, fewer, u, v, same, front, rest⟩ := first.cut p l n w b hasFirst path (by omega)
    obtain ⟨j, further, x, y, more, back, behind⟩ := second.cut p _ k v b hasSecond rest (by omega)
    refine ⟨j, by omega, u ++ x, y, by rw [same, more, List.append_assoc],
      Language.append_mem_mul front back, ?_⟩
    rw [← Nat.add_assoc]
    exact behind

theorem Recognizes.repeated {c : Code} {L : Language Nat} (recognizes : Recognizes c L) (n : Nat) :
    Recognizes (.repeated n c) (L ^ n) := by
  induction n with
  | zero => exact recognizes_nothing
  | succ n ih =>
    rw [pow_succ']
    exact recognizes.seq ih

theorem Recognizes.optional {c : Code} {L : Language Nat} (recognizes : Recognizes c L) :
    Recognizes c.optional (1 + L) where
  inner l := by simp [Code.optional, recognizes.inner]
  leads p l w has inside := by
    obtain ⟨fork, body⟩ := has_cons.mp has
    have place : l + (c.optional l).length = l + 1 + (c (l + 1)).length := by
      simp [Code.optional]
      omega
    rw [place]
    obtain skip | through := inside
    · cases skip
      exact leads_jump fork (by simp [Instruction.targets]) (leads_self p _)
    · exact leads_jump fork (by simp [Instruction.targets]) (recognizes.leads p _ w body through)
  cut p l n w b has path outside := by
    obtain ⟨fork, body⟩ := has_cons.mp has
    have place : l + (c.optional l).length = l + 1 + (c (l + 1)).length := by
      simp [Code.optional]
      omega
    rw [place] at outside ⊢
    obtain ⟨k, fewer, t, target, rest⟩ := path.next_jump fork (by omega)
    simp only [List.mem_cons, List.not_mem_nil, or_false] at target
    obtain through | skip := target
    · subst through
      obtain ⟨j, further, u, v, same, inside, behind⟩ :=
        recognizes.cut p _ k w b body rest (by omega)
      exact ⟨j, by omega, u, v, same, .inr inside, behind⟩
    · subst skip
      exact ⟨k, by omega, [], w, rfl, .inl rfl, rest⟩

/-- A path round the loop is cut where it starts again, and what is left is shorter. -/
theorem Recognizes.star {c : Code} {L : Language Nat} (recognizes : Recognizes c L) :
    Recognizes c.star L∗ where
  inner l := by simp [Code.star, recognizes.inner]
  leads p l w has inside := by
    obtain ⟨fork, body⟩ := has_cons.mp has
    obtain ⟨body, back⟩ := has_append.mp body
    obtain ⟨words, same, members⟩ := Language.mem_kstar.mp inside
    subst same
    clear inside
    have place : l + (c.star l).length = l + (c (l + 1)).length + 2 := by
      simp [Code.star]
      omega
    rw [place]
    induction words with
    | nil => exact leads_jump fork (by simp [Instruction.targets]) (leads_self p _)
    | cons u words ih =>
      simp only [List.mem_cons, forall_eq_or_imp] at members
      have again := ih members.2
      have around := leads_jump (has_cons.mp back).1 (by simp [Instruction.targets]) again
      exact leads_jump fork (by simp [Instruction.targets])
        ((recognizes.leads p _ u body members.1).trans around)
  cut p l n w b has path outside := by
    obtain ⟨fork, body⟩ := has_cons.mp has
    obtain ⟨body, back⟩ := has_append.mp body
    have place : l + (c.star l).length = l + (c (l + 1)).length + 2 := by
      simp [Code.star]
      omega
    rw [place] at outside ⊢
    induction n using Nat.strongRecOn generalizing w with
    | ind n ih =>
      obtain ⟨k, fewer, t, target, rest⟩ := path.next_jump fork (by omega)
      simp only [List.mem_cons, List.not_mem_nil, or_false] at target
      obtain through | skip := target
      · subst through
        obtain ⟨j, further, u, v, same, inside, behind⟩ :=
          recognizes.cut p _ k w b body rest (by omega)
        obtain ⟨i, shorter, t, target, again⟩ := behind.next_jump (has_cons.mp back).1 (by omega)
        cases List.mem_singleton.mp target
        obtain ⟨m, least, x, y, more, loops, after⟩ := ih i (by omega) v again
        refine ⟨m, by omega, u ++ x, y, by rw [same, more, List.append_assoc], ?_, after⟩
        rw [← Language.one_add_self_mul_kstar_eq_kstar]
        exact .inr (Language.append_mem_mul inside loops)
      · subst skip
        exact ⟨k, by omega, [], w, rfl, Language.nil_mem_kstar L, rest⟩

theorem Recognizes.plus {c : Code} {L : Language Nat} (recognizes : Recognizes c L) :
    Recognizes c.plus (L * L∗) where
  inner l := by simp [Code.plus, recognizes.inner]
  leads p l w has inside := by
    obtain ⟨body, back⟩ := has_append.mp has
    obtain ⟨u, first, v, loops, same⟩ := Language.mem_mul.mp inside
    obtain ⟨words, joined, members⟩ := Language.mem_kstar.mp loops
    subst same joined
    clear inside loops
    have place : l + (c.plus l).length = l + (c l).length + 1 := by
      simp [Code.plus]
      omega
    rw [place]
    induction words generalizing u with
    | nil =>
      have done : p.Leads (l + (c l).length) [] (l + (c l).length + 1) :=
        leads_jump (has_cons.mp back).1 (by simp [Instruction.targets]) (leads_self p _)
      exact (recognizes.leads p l u body first).trans done
    | cons v words ih =>
      simp only [List.mem_cons, forall_eq_or_imp] at members
      have again := leads_jump (has_cons.mp back).1 (by simp [Instruction.targets])
        (ih v members.1 members.2)
      exact (recognizes.leads p l u body first).trans again
  cut p l n w b has path outside := by
    obtain ⟨body, back⟩ := has_append.mp has
    have place : l + (c.plus l).length = l + (c l).length + 1 := by
      simp [Code.plus]
      omega
    rw [place] at outside ⊢
    induction n using Nat.strongRecOn generalizing w with
    | ind n ih =>
      obtain ⟨k, fewer, u, v, same, inside, rest⟩ := recognizes.cut p l n w b body path (by omega)
      obtain ⟨j, shorter, t, target, behind⟩ := rest.next_jump (has_cons.mp back).1 (by omega)
      simp only [List.mem_cons, List.not_mem_nil, or_false] at target
      obtain again | done := target
      · subst again
        obtain ⟨m, least, x, y, more, loops, after⟩ := ih j (by omega) v behind
        refine ⟨m, by omega, u ++ x, y, by rw [same, more, List.append_assoc], ?_, after⟩
        refine Language.append_mem_mul inside ?_
        rw [← Language.one_add_self_mul_kstar_eq_kstar]
        exact .inr loops
      · subst done
        exact ⟨j, by omega, u, v, same, ⟨u, inside, [], Language.nil_mem_kstar L, by simp⟩, behind⟩

end Code

end SchemaRegex

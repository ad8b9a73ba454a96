import SchemaRegex.Proofs.Program.Emission

/-!
# The size of a program

The size of a program is computed from its expression. The limit only decides whether there is a
program: within it, the program is always the same one (`program_within_limit`).
-/

namespace SchemaRegex

def Quantifier.codeSize : Quantifier → Nat → Nat
  | ⟨min, some max⟩, atom => min * atom + (max - min) * (atom + 1)
  | ⟨0, none⟩, atom => atom + 2
  | ⟨min + 1, none⟩, atom => (min + 1) * atom + 1

def Piece.RepeatsAnchor (p : Piece) (previous : Option Piece) : Prop :=
  p.anchor?.isSome ∧ previous = some p

private theorem Piece.repeatsAnchor_iff {p : Piece} {previous : Option Piece} :
    p.RepeatsAnchor previous ↔ p.anchor?.isSome ∧ p.anchor? = previous.bind Piece.anchor? := by
  unfold RepeatsAnchor
  apply and_congr_right
  intro anchor
  constructor
  · intro same
    rw [same]
    rfl
  · intro same
    obtain ⟨c, here⟩ := Option.isSome_iff_exists.mp anchor
    rw [here] at same
    obtain ⟨q, before, there⟩ := Option.bind_eq_some_iff.mp same.symm
    rw [before, (Piece.eq_of_anchor here).1, (Piece.eq_of_anchor there).1]

instance (p : Piece) (previous : Option Piece) : Decidable (p.RepeatsAnchor previous) :=
  decidable_of_iff _ Piece.repeatsAnchor_iff.symm

mutual

def Atom.codeSize : Atom → Nat
  | .literal _ => 1
  | .set _ => 1
  | .group r => r.codeSize

def Piece.codeSize : Piece → Nat
  | ⟨atom, quantifier⟩ => quantifier.codeSize atom.codeSize

def piecesCodeSize (previous : Option Piece) : List Piece → Nat
  | [] => 0
  | p :: ps => (if p.RepeatsAnchor previous then 0 else p.codeSize) + piecesCodeSize (some p) ps

def Branch.codeSize : Branch → Nat
  | ⟨pieces⟩ => piecesCodeSize none pieces

def branchesCodeSize : List Branch → Nat
  | [] => 0
  | b :: bs => 1 + b.codeSize + branchesCodeSize bs

def Regex.codeSize : Regex → Nat
  | ⟨branches⟩ => 1 + branchesCodeSize branches

end

def Regex.programSize (r : Regex) : Dialect → Nat
  | .xsd => r.codeSize + 1
  | .xpath => r.codeSize + 1 + 6

namespace Code

private def Sized (c : Code) (n : Nat) : Prop := ∀ l, (c l).length = n

variable {c d : Code} {m n : Nat}

private theorem sized_one (instr : Instruction) : (one instr).Sized 1 := fun _ => rfl

private theorem Sized.seq (first : c.Sized m) (second : d.Sized n) : (c.seq d).Sized (m + n) := by
  intro l
  rw [Code.seq, List.length_append, first, second]

private theorem Sized.repeated (sized : c.Sized n) (k : Nat) : (Code.repeated k c).Sized (k * n) := by
  induction k with
  | zero =>
    intro l
    rw [Nat.zero_mul]
    rfl
  | succ k ih =>
    have size : (k + 1) * n = n + k * n := by rw [Nat.succ_mul, Nat.add_comm]
    rw [size]
    exact sized.seq ih

private theorem Sized.optional (sized : c.Sized n) : c.optional.Sized (n + 1) := by
  intro l
  rw [Code.optional, List.length_cons, sized]

private theorem Sized.star (sized : c.Sized n) : c.star.Sized (n + 2) := by
  intro l
  rw [Code.star, List.length_append, List.length_cons, sized]
  rfl

private theorem Sized.plus (sized : c.Sized n) : c.plus.Sized (n + 1) := by
  intro l
  rw [Code.plus, List.length_append, sized]
  rfl

private theorem Sized.quantified (sized : c.Sized n) (q : Quantifier) :
    (Code.quantified q c).Sized (q.codeSize n) := by
  obtain ⟨min, max⟩ := q
  cases max with
  | some max => exact (sized.repeated min).seq (sized.optional.repeated (max - min))
  | none =>
    cases min with
    | zero => exact sized.star
    | succ k =>
      have size : (k + 1) * n + 1 = k * n + (n + 1) := by rw [Nat.succ_mul, Nat.add_assoc]
      change (Code.seq _ _).Sized ((k + 1) * n + 1)
      rw [size]
      exact (sized.repeated k).seq sized.plus

private theorem Sized.joined {cs : List Code} (sized : c.Sized m)
    (others : ∀ exit, (Code.joined exit cs).Sized n) (exit : Array Nat) :
    (Code.joined exit (c :: cs)).Sized (1 + m + n) := by
  have size : 1 + m + n = m + (1 + n) := by omega
  rw [size]
  exact sized.seq ((sized_one _).seq (others exit))

private theorem sized_choice {cs : List Code} (sized : ∀ exit, (joined exit cs).Sized n) :
    (choice cs).Sized (1 + n) := by
  intro l
  rw [Code.choice, List.length_cons, sized, Nat.add_comm]

end Code

mutual

private theorem Atom.code_sized : (x : Atom) → x.merged.code.Sized x.codeSize
  | .literal c => Code.sized_one (.literal c)
  | .set s => Code.sized_one (.set s)
  | .group r => Regex.code_sized r

private theorem Piece.code_sized : (p : Piece) → p.merged.code.Sized p.codeSize
  | ⟨atom, quantifier⟩ => (Atom.code_sized atom).quantified quantifier

private theorem pieces_code_sized (previous : Option Piece) : (ps : List Piece) →
    (piecesCode (mergedPieces (previous.bind Piece.anchor?) ps)).Sized (piecesCodeSize previous ps)
  | [] => fun _ => rfl
  | p :: ps => by
    have others := pieces_code_sized (some p) ps
    change (piecesCode (mergedPieces p.anchor? ps)).Sized _ at others
    rw [mergedPieces, piecesCodeSize]
    simp only [Piece.repeatsAnchor_iff]
    split
    · rw [Nat.zero_add]
      exact others
    · exact (Piece.code_sized p).seq others

private theorem Branch.code_sized : (b : Branch) → b.merged.code.Sized b.codeSize
  | ⟨pieces⟩ => pieces_code_sized none pieces

private theorem branches_code_sized : (bs : List Branch) → ∀ exit,
    (Code.joined exit (branchCodes (mergedBranches bs))).Sized (branchesCodeSize bs)
  | [] => fun _ _ => rfl
  | b :: bs => (Branch.code_sized b).joined (branches_code_sized bs)

private theorem Regex.code_sized : (r : Regex) → r.merged.code.Sized r.codeSize
  | ⟨branches⟩ => Code.sized_choice (branches_code_sized branches)

end

theorem layout_sized (r : Regex) (d : Dialect) : (r.layout d).Sized (r.programSize d) := by
  have anything : (Code.star (.one .any)).Sized 3 := (Code.sized_one .any).star
  have accept : (Code.one .accept).Sized 1 := Code.sized_one .accept
  cases d with
  | xsd => exact (Regex.code_sized r).seq accept
  | xpath =>
    have size : r.programSize .xpath = 3 + (r.codeSize + 3) + 1 := by
      rw [Regex.programSize]
      omega
    rw [size]
    exact (anything.seq ((Regex.code_sized r).seq anything)).seq accept

/-- A program has the size of its expression. It is assembled if that is within the limit, and it is
the same for all these limits. Otherwise it is too large, and nothing else goes wrong. -/
theorem program_within_limit (r : Regex) (d : Dialect) :
    ∃ p : Program, p.size = r.programSize d ∧ ∀ limit,
      r.compile d limit = if r.programSize d ≤ limit then .ok p else .error .tooLarge := by
  have size := layout_sized r d 0
  refine ⟨(r.layout d 0).toArray, by rw [List.size_toArray, size], ?_⟩
  intro limit
  split
  · rename_i fits
    apply compile_of_fits
    rw [size]
    exact fits
  · rename_i exceeds
    have some : r.layout d 0 ≠ [] := by
      apply List.ne_nil_of_length_pos
      rw [size]
      cases d <;> exact Nat.succ_pos _
    have full : ¬ (r.layout d 0 = [] ∨ ([] : List Instruction).length + (r.layout d 0).length ≤ limit) := by
      rw [size, List.length_nil, Nat.zero_add]
      exact not_or.mpr ⟨some, exceeds⟩
    rw [compile_eq, Assembly.extend, if_neg full]
    rfl

/-- The program of `a(b|c)*`. -/
example :
    let letter (c : Nat) : Branch := ⟨[⟨.literal c, .once⟩]⟩
    let choice : Regex := ⟨[letter 0x62, letter 0x63]⟩
    let r : Regex := ⟨[⟨[⟨.literal 0x61, .once⟩, ⟨.group choice, ⟨0, none⟩⟩]⟩]⟩
    r.programSize .xsd = 11 ∧ r.programSize .xpath = 17 := by
  decide

end SchemaRegex

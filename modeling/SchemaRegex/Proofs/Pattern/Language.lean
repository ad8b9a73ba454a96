import Mathlib.Computability.Language
import SchemaRegex.Pattern.Regex

/-!
# The language of an expression

The words of an expression: its branches give the union, the pieces of a branch the concatenation,
and a quantifier the powers it allows. An anchor counts as a letter here; without anchors no word has
a mark (`Regex.unmarked`).
-/

namespace SchemaRegex

def Quantifier.Allows (q : Quantifier) (k : Nat) : Prop := q.min ≤ k ∧ ∀ max ∈ q.max, k ≤ max

def Quantifier.Ordered (q : Quantifier) : Prop := ∀ max ∈ q.max, q.min ≤ max

theorem Quantifier.once_ordered : Quantifier.once.Ordered := by
  intro max bounded
  cases bounded
  exact Nat.le_refl 1

mutual

def Atom.language : Atom → Language Nat
  | .literal c => {w | w = [c]}
  | .set s => {w | ∃ c ∈ s, w = [c]}
  | .group r => r.language

def Piece.language : Piece → Language Nat
  | ⟨atom, quantifier⟩ => {w | ∃ k, quantifier.Allows k ∧ w ∈ atom.language ^ k}

def piecesLanguage : List Piece → Language Nat
  | [] => 1
  | p :: ps => p.language * piecesLanguage ps

def Branch.language : Branch → Language Nat
  | ⟨pieces⟩ => piecesLanguage pieces

def branchesLanguage : List Branch → Language Nat
  | [] => 0
  | b :: bs => b.language + branchesLanguage bs

def Regex.language : Regex → Language Nat
  | ⟨branches⟩ => branchesLanguage branches

end

mutual

def Atom.Every (P : Piece → Prop) : Atom → Prop
  | .literal _ => True
  | .set _ => True
  | .group r => r.Every P

def Piece.Every (P : Piece → Prop) : Piece → Prop
  | ⟨atom, quantifier⟩ => P ⟨atom, quantifier⟩ ∧ atom.Every P

def PiecesEvery (P : Piece → Prop) : List Piece → Prop
  | [] => True
  | p :: ps => p.Every P ∧ PiecesEvery P ps

def Branch.Every (P : Piece → Prop) : Branch → Prop
  | ⟨pieces⟩ => PiecesEvery P pieces

def BranchesEvery (P : Piece → Prop) : List Branch → Prop
  | [] => True
  | b :: bs => b.Every P ∧ BranchesEvery P bs

def Regex.Every (P : Piece → Prop) : Regex → Prop
  | ⟨branches⟩ => BranchesEvery P branches

end

def Piece.NoMark (p : Piece) : Prop := ∀ c, p.atom = .literal c → c ≠ startMark ∧ c ≠ endMark

def Regex.MarkFree (r : Regex) : Prop := r.Every Piece.NoMark

def Regex.Ordered (r : Regex) : Prop := r.Every (·.quantifier.Ordered)

def Unmarked (w : List Nat) : Prop := ∀ c ∈ w, c ≠ startMark ∧ c ≠ endMark

theorem unmarked_nil : Unmarked [] := fun _ member => absurd member List.not_mem_nil

theorem Unmarked.append {u v : List Nat} (first : Unmarked u) (second : Unmarked v) :
    Unmarked (u ++ v) := fun c member => (List.mem_append.mp member).elim (first c) (second c)

theorem unmarked_mul {L M : Language Nat} (first : ∀ w ∈ L, Unmarked w)
    (second : ∀ w ∈ M, Unmarked w) : ∀ w ∈ L * M, Unmarked w := by
  intro w inside
  obtain ⟨u, front, v, back, same⟩ := Language.mem_mul.mp inside
  rw [← same]
  exact (first u front).append (second v back)

theorem unmarked_pow {L : Language Nat} (unmarked : ∀ w ∈ L, Unmarked w) (k : Nat) :
    ∀ w ∈ L ^ k, Unmarked w := by
  induction k with
  | zero =>
    intro w inside
    cases inside
    exact unmarked_nil
  | succ k ih =>
    rw [pow_succ]
    exact unmarked_mul ih unmarked

mutual

private theorem Atom.unmarked : (x : Atom) → (∀ q, Piece.NoMark ⟨x, q⟩) → x.Every Piece.NoMark →
    ∀ w ∈ x.language, Unmarked w
  | .literal c, plain, _ => by
    intro w inside d member
    cases inside
    cases List.mem_singleton.mp member
    exact plain .once c rfl
  | .set s, _, _ => by
    intro w inside d member
    obtain ⟨c, contained, same⟩ := inside
    subst same
    cases List.mem_singleton.mp member
    have within := CodepointSet.le_lastCodepoint_of_mem contained
    simp only [startMark, endMark, ne_eq]
    omega
  | .group r, _, free => Regex.unmarked r free

private theorem Piece.unmarked : (p : Piece) → p.Every Piece.NoMark → ∀ w ∈ p.language, Unmarked w
  | ⟨atom, _⟩, free => by
    intro w inside
    obtain ⟨k, _, inside⟩ := inside
    exact unmarked_pow (Atom.unmarked atom (fun _ => free.1) free.2) k w inside

private theorem unmarked_pieces : (ps : List Piece) → PiecesEvery Piece.NoMark ps →
    ∀ w ∈ piecesLanguage ps, Unmarked w
  | [], _ => fun _ inside => inside ▸ unmarked_nil
  | p :: ps, free => unmarked_mul (Piece.unmarked p free.1) (unmarked_pieces ps free.2)

private theorem Branch.unmarked : (b : Branch) → b.Every Piece.NoMark → ∀ w ∈ b.language, Unmarked w
  | ⟨pieces⟩, free => unmarked_pieces pieces free

private theorem unmarked_branches : (bs : List Branch) → BranchesEvery Piece.NoMark bs →
    ∀ w ∈ branchesLanguage bs, Unmarked w
  | [], _ => fun w inside => absurd inside (Language.notMem_zero w)
  | b :: bs, free => fun w inside =>
    inside.elim (Branch.unmarked b free.1 w) (unmarked_branches bs free.2 w)

/-- The words of an expression have no marks if its literals are none. -/
theorem Regex.unmarked : (r : Regex) → r.MarkFree → ∀ w ∈ r.language, Unmarked w
  | ⟨branches⟩, free => unmarked_branches branches free

end

end SchemaRegex

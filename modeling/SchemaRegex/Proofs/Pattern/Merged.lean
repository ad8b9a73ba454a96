import SchemaRegex.Program.Compile
import SchemaRegex.Proofs.Pattern.Language

/-!
# Repeated anchors

In the program equal anchors side by side are one. The same is done to the expression here. It keeps
the quantifiers, and it does nothing to an expression without anchors (`merged_eq`).
-/

namespace SchemaRegex

mutual

def Atom.merged : Atom → Atom
  | .literal c => .literal c
  | .set s => .set s
  | .group r => .group r.merged

def Piece.merged : Piece → Piece
  | ⟨atom, quantifier⟩ => ⟨atom.merged, quantifier⟩

def mergedPieces (previous : Option Nat) : List Piece → List Piece
  | [] => []
  | p :: ps =>
    if p.anchor?.isSome ∧ p.anchor? = previous then mergedPieces p.anchor? ps
    else p.merged :: mergedPieces p.anchor? ps

def Branch.merged : Branch → Branch
  | ⟨pieces⟩ => ⟨mergedPieces none pieces⟩

def mergedBranches : List Branch → List Branch
  | [] => []
  | b :: bs => b.merged :: mergedBranches bs

def Regex.merged : Regex → Regex
  | ⟨branches⟩ => ⟨mergedBranches branches⟩

end

theorem Piece.NoMark.anchor_eq_none {p : Piece} (unmarked : p.NoMark) : p.anchor? = none := by
  obtain ⟨atom, quantifier⟩ := p
  cases atom with
  | literal c =>
    obtain ⟨notStart, notEnd⟩ := unmarked c rfl
    simp [Piece.anchor?, notStart, notEnd]
  | set s => rfl
  | group r => rfl

theorem Piece.eq_of_anchor {p : Piece} {c : Nat} (anchor : p.anchor? = some c) :
    p = ⟨.literal c, .once⟩ ∧ (c = startMark ∨ c = endMark) := by
  obtain ⟨atom, quantifier⟩ := p
  cases atom with
  | literal d =>
    simp only [Piece.anchor?, Option.ite_none_right_eq_some, Option.some.injEq] at anchor
    obtain ⟨⟨mark, once⟩, same⟩ := anchor
    subst same once
    exact ⟨rfl, mark⟩
  | set set => cases anchor
  | group r => cases anchor

mutual

private theorem Atom.merged_eq : (x : Atom) → x.Every Piece.NoMark → x.merged = x
  | .literal _, _ => rfl
  | .set _, _ => rfl
  | .group r, free => congrArg Atom.group (Regex.merged_eq r free)

private theorem Piece.merged_eq : (p : Piece) → p.Every Piece.NoMark → p.merged = p
  | ⟨atom, quantifier⟩, free => congrArg (Piece.mk · quantifier) (Atom.merged_eq atom free.2)

private theorem mergedPieces_eq (previous : Option Nat) : (ps : List Piece) → PiecesEvery Piece.NoMark ps →
    mergedPieces previous ps = ps
  | [], _ => rfl
  | ⟨atom, quantifier⟩ :: ps, free => by
    have unmarked : (⟨atom, quantifier⟩ : Piece).anchor? = none := free.1.1.anchor_eq_none
    rw [mergedPieces, if_neg (by simp [unmarked]), Piece.merged_eq _ free.1, mergedPieces_eq _ ps free.2]

private theorem Branch.merged_eq : (b : Branch) → b.Every Piece.NoMark → b.merged = b
  | ⟨pieces⟩, free => congrArg Branch.mk (mergedPieces_eq none pieces free)

private theorem mergedBranches_eq : (bs : List Branch) → BranchesEvery Piece.NoMark bs →
    mergedBranches bs = bs
  | [], _ => rfl
  | b :: bs, free => by
    rw [mergedBranches, Branch.merged_eq b free.1, mergedBranches_eq bs free.2]

theorem Regex.merged_eq : (r : Regex) → r.MarkFree → r.merged = r
  | ⟨branches⟩, free => congrArg Regex.mk (mergedBranches_eq branches free)

end

mutual

private theorem Atom.ordered_merged : (x : Atom) → x.Every (·.quantifier.Ordered) →
    x.merged.Every (·.quantifier.Ordered)
  | .literal _, _ => trivial
  | .set _, _ => trivial
  | .group r, ordered => Regex.Ordered.merged r ordered

private theorem Piece.ordered_merged : (p : Piece) → p.Every (·.quantifier.Ordered) →
    p.merged.Every (·.quantifier.Ordered)
  | ⟨atom, _⟩, ordered => ⟨ordered.1, Atom.ordered_merged atom ordered.2⟩

private theorem ordered_mergedPieces (previous : Option Nat) : (ps : List Piece) →
    PiecesEvery (·.quantifier.Ordered) ps →
    PiecesEvery (·.quantifier.Ordered) (mergedPieces previous ps)
  | [], _ => trivial
  | p :: ps, ordered => by
    rw [mergedPieces]
    split
    · exact ordered_mergedPieces _ ps ordered.2
    · exact ⟨Piece.ordered_merged p ordered.1, ordered_mergedPieces _ ps ordered.2⟩

private theorem Branch.ordered_merged : (b : Branch) → b.Every (·.quantifier.Ordered) →
    b.merged.Every (·.quantifier.Ordered)
  | ⟨pieces⟩, ordered => ordered_mergedPieces none pieces ordered

private theorem ordered_mergedBranches : (bs : List Branch) →
    BranchesEvery (·.quantifier.Ordered) bs →
    BranchesEvery (·.quantifier.Ordered) (mergedBranches bs)
  | [], _ => trivial
  | b :: bs, ordered => ⟨Branch.ordered_merged b ordered.1, ordered_mergedBranches bs ordered.2⟩

theorem Regex.Ordered.merged : (r : Regex) → r.Ordered → r.merged.Ordered
  | ⟨branches⟩, ordered => ordered_mergedBranches branches ordered

end

end SchemaRegex

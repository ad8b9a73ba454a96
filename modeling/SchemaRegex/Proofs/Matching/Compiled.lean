import SchemaRegex.Matcher
import SchemaRegex.Proofs.Pattern.Completeness
import SchemaRegex.Proofs.Pattern.Language

/-!
# What a matcher is compiled from

A matcher holds the program of the one tree that its pattern has, and all quantifiers of that tree are
in order.
-/

namespace SchemaRegex

open Pattern

variable {d : Dialect} {n : Nat}

theorem Pattern.QuantifierText.ordered {w : List Char} {q : Quantifier} (text : QuantifierText d w q) :
    q.Ordered := by
  intro max bounded
  exact (text.fits.most max bounded).1

mutual

private theorem Atom.ordered_of_derives : (x : Atom) → {n : Nat} → {w : List Char} → DerivesAtom d n w x →
    x.Every (·.quantifier.Ordered)
  | .literal _, _, _, _ => trivial
  | .set _, _, _, _ => trivial
  | .group r, _, _, derives => by
    cases derives with
    | group inside => exact Regex.ordered_of_derives r inside
    | plainGroup _ inside => exact Regex.ordered_of_derives r inside

private theorem Piece.ordered_of_derives : (p : Piece) → {n : Nat} → {w : List Char} →
    DerivesPiece d n w p → p.Every (·.quantifier.Ordered)
  | ⟨x, q⟩, _, _, derives => by
    cases derives with
    | once atom => exact ⟨Quantifier.once_ordered, Atom.ordered_of_derives x atom⟩
    | quantified atom text => exact ⟨text.ordered, Atom.ordered_of_derives x atom⟩

private theorem pieces_ordered_of_derives : (ps : List Piece) → {n : Nat} → {w : List Char} →
    DerivesBranch d n w ⟨ps⟩ → PiecesEvery (·.quantifier.Ordered) ps
  | [], _, _, _ => trivial
  | p :: ps, _, _, derives => by
    cases derives with
    | piece first others =>
      exact ⟨Piece.ordered_of_derives p first, pieces_ordered_of_derives ps others⟩

private theorem Branch.ordered_of_derives : (b : Branch) → {n : Nat} → {w : List Char} →
    DerivesBranch d n w b → b.Every (·.quantifier.Ordered)
  | ⟨ps⟩, _, _, derives => pieces_ordered_of_derives ps derives

private theorem branches_ordered_of_derives : (bs : List Branch) → {n : Nat} → {w : List Char} →
    DerivesRegex d n w ⟨bs⟩ → BranchesEvery (·.quantifier.Ordered) bs
  | [], _, _, _ => trivial
  | b :: bs, _, _, derives => by
    cases derives with
    | branch only => exact ⟨Branch.ordered_of_derives b only, trivial⟩
    | alternative first others =>
      exact ⟨Branch.ordered_of_derives b first, branches_ordered_of_derives bs others⟩

/-- A pattern has its bounds in order. -/
theorem Regex.ordered_of_derives : (r : Regex) → {n : Nat} → {w : List Char} →
    DerivesRegex d n w r → r.Ordered
  | ⟨bs⟩, _, _, derives => branches_ordered_of_derives bs derives

end

theorem Matcher.compile_eq_ok {text : String} {limit : Nat} {m : Matcher} :
    Matcher.compile text d limit = .ok m ↔ ∃ r p, Pattern.parse { dialect := d } text = .ok r ∧
      r.compile d limit = .ok p ∧ m = ⟨text, d, p⟩ := by
  unfold Matcher.compile
  cases parsed : Pattern.parse { dialect := d } text with
  | error e => simp
  | ok r =>
    cases compiled : r.compile d limit with
    | error e => simp [compiled]
    | ok p =>
      simp only [Except.ok.injEq, exists_and_left, exists_eq_left', compiled]
      exact eq_comm

end SchemaRegex

import SchemaRegex.Codepoint
import SchemaRegex.Proofs.Pattern.ClassText
import SchemaRegex.Proofs.Pattern.QuantityText

/-!
# Derivations of patterns

The grammar as a relation between a text and the tree it stands for, with at most so many brackets
open at a time. It says nothing about the order in which anything is tried, or where reading stops.
What follows from the first character of a derived text is what the reader relies on.
-/

namespace SchemaRegex.Pattern

open Reader

mutual

inductive DerivesAtom (d : Dialect) : Nat → List Char → Atom → Prop
  | character {n : Nat} {c : Char} (plain : c ∉ d.metacharacters) :
    DerivesAtom d n [c] (.literal c.toNat)
  | charEscape {n : Nat} {w : List Char} {c : Char} (escape : CharEscape d w c) :
    DerivesAtom d n w (.literal c.toNat)
  | classEscape {n : Nat} {w : List Char} {set : CodepointSet} (escape : ClassEscape d w set) :
    DerivesAtom d n w (.set set)
  | classExpr {n : Nat} {w : List Char} {set : CodepointSet}
    (text : Takes (Pattern.classExpr { dialect := d } n) w set []) : DerivesAtom d n w (.set set)
  | wildcard {n : Nat} : DerivesAtom d n ['.'] (.set .wildcard)
  | group {n : Nat} {w : List Char} {r : Regex} (inside : DerivesRegex d n w r) :
    DerivesAtom d (n + 1) ('(' :: w ++ [')']) (.group r)
  | plainGroup {n : Nat} {w : List Char} {r : Regex} (xpath : d = .xpath)
    (inside : DerivesRegex d n w r) :
    DerivesAtom d (n + 1) ('(' :: '?' :: ':' :: w ++ [')']) (.group r)
  | startAnchor {n : Nat} (xpath : d = .xpath) : DerivesAtom d n ['^'] (.literal startMark)
  | endAnchor {n : Nat} (xpath : d = .xpath) : DerivesAtom d n ['$'] (.literal endMark)

inductive DerivesPiece (d : Dialect) : Nat → List Char → Piece → Prop
  | once {n : Nat} {w : List Char} {x : Atom} (atom : DerivesAtom d n w x) :
    DerivesPiece d n w ⟨x, .once⟩
  | quantified {n : Nat} {u w : List Char} {x : Atom} {q : Quantifier} (atom : DerivesAtom d n u x)
    (text : QuantifierText d w q) : DerivesPiece d n (u ++ w) ⟨x, q⟩

inductive DerivesBranch (d : Dialect) : Nat → List Char → Branch → Prop
  | empty {n : Nat} : DerivesBranch d n [] ⟨[]⟩
  | piece {n : Nat} {u w : List Char} {p : Piece} {ps : List Piece} (first : DerivesPiece d n u p)
    (others : DerivesBranch d n w ⟨ps⟩) : DerivesBranch d n (u ++ w) ⟨p :: ps⟩

inductive DerivesRegex (d : Dialect) : Nat → List Char → Regex → Prop
  | branch {n : Nat} {w : List Char} {b : Branch} (only : DerivesBranch d n w b) :
    DerivesRegex d n w ⟨[b]⟩
  | alternative {n : Nat} {u w : List Char} {b : Branch} {bs : List Branch}
    (first : DerivesBranch d n u b) (others : DerivesRegex d n w ⟨bs⟩) :
    DerivesRegex d n (u ++ '|' :: w) ⟨b :: bs⟩

end

def NoAtom (c : Char) : Prop := c ∈ ['?', '*', '+', '{', '|', ')']

instance (c : Char) : Decidable (NoAtom c) :=
  inferInstanceAs (Decidable (c ∈ ['?', '*', '+', '{', '|', ')']))

theorem NoAtom.mem_metacharacters {d : Dialect} {c : Char} (noAtom : NoAtom c) :
    c ∈ d.metacharacters := by
  have all : ∀ c ∈ ['?', '*', '+', '{', '|', ')'], c ∈ Dialect.xsd.metacharacters := by
    simp [metacharacters_xsd]
  exact mem_metacharacters_of_xsd (all c noAtom)

variable {d : Dialect} {n : Nat}

theorem DerivesAtom.start {w : List Char} {x : Atom} (atom : DerivesAtom d n w x) :
    ∃ c u, w = c :: u ∧ ¬ NoAtom c := by
  cases atom with
  | @character _ c plain => exact ⟨c, [], rfl, mt NoAtom.mem_metacharacters plain⟩
  | charEscape escape =>
    obtain ⟨e, same, _⟩ := escape.start
    exact ⟨'\\', [e], same, by decide⟩
  | classEscape escape =>
    obtain ⟨e, u, same, _⟩ := escape.start
    exact ⟨'\\', e :: u, same, by decide⟩
  | classExpr text =>
    obtain ⟨u, same⟩ := exists_of_takes_classExpr text
    exact ⟨'[', _, same, by decide⟩
  | wildcard => exact ⟨'.', [], rfl, by decide⟩
  | group => exact ⟨'(', _, rfl, by decide⟩
  | plainGroup => exact ⟨'(', _, rfl, by decide⟩
  | startAnchor => exact ⟨'^', [], rfl, by decide⟩
  | endAnchor => exact ⟨'$', [], rfl, by decide⟩

theorem DerivesPiece.start {w : List Char} {p : Piece} (piece : DerivesPiece d n w p) :
    ∃ c u, w = c :: u ∧ ¬ NoAtom c := by
  cases piece with
  | once atom => exact atom.start
  | @quantified _ _ v _ _ atom text =>
    obtain ⟨c, u, same, start⟩ := atom.start
    exact ⟨c, u ++ v, by rw [same, List.cons_append], start⟩

theorem DerivesBranch.start {w : List Char} {b : Branch} (branch : DerivesBranch d n w b) :
    w = [] ∨ ∃ c u, w = c :: u ∧ ¬ NoAtom c := by
  cases branch with
  | empty => exact .inl rfl
  | @piece _ _ v _ _ first others =>
    obtain ⟨c, u, same, start⟩ := first.start
    exact .inr ⟨c, u ++ v, by rw [same, List.cons_append], start⟩

theorem DerivesRegex.start {w : List Char} {r : Regex} (regex : DerivesRegex d n w r) :
    w = [] ∨ ∃ c u, w = c :: u ∧ (c = '|' ∨ ¬ NoAtom c) := by
  have first {v : List Char} {b : Branch} (branch : DerivesBranch d n v b) :
      v = [] ∨ ∃ c u, v = c :: u ∧ (c = '|' ∨ ¬ NoAtom c) := by
    obtain none | ⟨c, u, same, start⟩ := branch.start
    · exact .inl none
    · exact .inr ⟨c, u, same, .inr start⟩
  cases regex with
  | branch only => exact first only
  | @alternative _ _ v _ _ branch others =>
    refine .inr ?_
    obtain none | ⟨c, u, same, start⟩ := first branch
    · exact ⟨'|', v, by rw [none, List.nil_append], .inl rfl⟩
    · exact ⟨c, u ++ '|' :: v, by rw [same, List.cons_append], start⟩

end SchemaRegex.Pattern

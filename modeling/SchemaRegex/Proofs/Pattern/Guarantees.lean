import SchemaRegex.Proofs.CodepointSet.Expression
import SchemaRegex.Proofs.Matching.Compiled
import SchemaRegex.Proofs.Pattern.Anchors

/-!
# What the tree of a pattern guarantees

A program is compiled from a tree without checking it again. What the compiler relies on holds of every
tree that is read (`parse_guarantees`). The literals beyond the codespace are the anchors of the pattern,
one for one.
-/

namespace SchemaRegex

structure CodepointSet.InCodespace (s : CodepointSet) : Prop where
  ranges : ∀ r ∈ s.ranges, r.lo ≤ r.hi ∧ r.hi ≤ lastCodepoint
  apart : s.ranges.toList.Pairwise fun q r => q.hi + 1 < r.lo
  noMark : ∀ c, lastCodepoint < c → s.contains c = false

private theorem CodepointSet.inCodespace (s : CodepointSet) : s.InCodespace where
  ranges r member := s.canonical.valid r (Array.mem_toList_iff.mpr member)
  apart := s.canonical.ordered
  noMark _ := s.contains_eq_false_of_lt

mutual

def Atom.literals : Atom → List Nat
  | .literal c => [c]
  | .set _ => []
  | .group r => r.literals

def Piece.literals : Piece → List Nat
  | ⟨atom, _⟩ => atom.literals

def piecesLiterals : List Piece → List Nat
  | [] => []
  | p :: ps => p.literals ++ piecesLiterals ps

def Branch.literals : Branch → List Nat
  | ⟨pieces⟩ => piecesLiterals pieces

def branchesLiterals : List Branch → List Nat
  | [] => []
  | b :: bs => b.literals ++ branchesLiterals bs

def Regex.literals : Regex → List Nat
  | ⟨branches⟩ => branchesLiterals branches

end

mutual

def Atom.groupDepth : Atom → Nat
  | .literal _ => 0
  | .set _ => 0
  | .group r => r.groupDepth + 1

def Piece.groupDepth : Piece → Nat
  | ⟨atom, _⟩ => atom.groupDepth

def piecesGroupDepth : List Piece → Nat
  | [] => 0
  | p :: ps => max p.groupDepth (piecesGroupDepth ps)

def Branch.groupDepth : Branch → Nat
  | ⟨pieces⟩ => piecesGroupDepth pieces

def branchesGroupDepth : List Branch → Nat
  | [] => 0
  | b :: bs => max b.groupDepth (branchesGroupDepth bs)

def Regex.groupDepth : Regex → Nat
  | ⟨branches⟩ => branchesGroupDepth branches

end

def marksAmong (literals : List Nat) : List Nat := literals.filter fun c => lastCodepoint < c

private theorem marksAmong_append (xs ys : List Nat) :
    marksAmong (xs ++ ys) = marksAmong xs ++ marksAmong ys :=
  List.filter_append xs ys

private theorem marksAmong_char (c : Char) : marksAmong [c.toNat] = [] := by
  have bound := char_toNat_le_lastCodepoint c
  simp only [marksAmong, List.filter_cons, List.filter_nil]
  rw [if_neg (by simpa using bound)]

structure Piece.Guaranteed (d : Dialect) (p : Piece) : Prop where
  ordered : p.quantifier.Ordered
  literal : ∀ c, p.atom = .literal c → c.isValidChar ∨ d = .xpath ∧ (c = startMark ∨ c = endMark)
  set : ∀ s, p.atom = .set s → s.InCodespace
  group : ∀ r, p.atom = .group r → r.branches ≠ []

namespace Pattern

structure Guarantees (d : Dialect) (n : Nat) (w : List Char) (r : Regex) : Prop where
  branches : r.branches ≠ []
  pieces : r.Every (·.Guaranteed d)
  depth : r.groupDepth ≤ n
  marks : marksAmong r.literals = Nesting.start.anchors d w

variable {d : Dialect} {P : Piece → Prop} {p : Piece} {bs : List Branch}

private theorem prepend_ne_nil : prepend p bs ≠ [] := by
  match bs with
  | [] | ⟨_⟩ :: _ => exact List.cons_ne_nil _ _

private theorem every_prepend : BranchesEvery P (prepend p bs) ↔ p.Every P ∧ BranchesEvery P bs := by
  match bs with
  | [] => simp [prepend, BranchesEvery, Branch.Every, PiecesEvery]
  | ⟨_⟩ :: _ => simp [prepend, BranchesEvery, Branch.Every, PiecesEvery, and_assoc]

private theorem literals_prepend : branchesLiterals (prepend p bs) = p.literals ++ branchesLiterals bs := by
  match bs with
  | [] => simp [prepend, branchesLiterals, Branch.literals, piecesLiterals]
  | ⟨_⟩ :: _ => simp [prepend, branchesLiterals, Branch.literals, piecesLiterals]

private theorem groupDepth_prepend :
    branchesGroupDepth (prepend p bs) = max p.groupDepth (branchesGroupDepth bs) := by
  match bs with
  | [] => simp [prepend, branchesGroupDepth, Branch.groupDepth, piecesGroupDepth]
  | ⟨_⟩ :: _ => simp [prepend, branchesGroupDepth, Branch.groupDepth, piecesGroupDepth, Nat.max_assoc]

private theorem PatternSyntax.branches_ne_nil (e : PatternSyntax) : e.branches ≠ [] := by
  cases e with
  | empty | bar => exact List.cons_ne_nil _ _
  | leaf | group => exact prepend_ne_nil

/-- What holds of each piece that is written holds of each piece of the tree. -/
theorem PatternSyntax.every {e : PatternSyntax} (formed : e.WellFormed d)
    (leaf : ∀ (l : LeafSyntax) (q : QuantifierSyntax), l.WellFormed d → q.WellFormed d →
      P ⟨l.atom, q.quantifier⟩)
    (group : ∀ (i : PatternSyntax) (q : QuantifierSyntax), q.WellFormed d →
      P ⟨.group i.regex, q.quantifier⟩) : BranchesEvery P e.branches := by
  induction e with
  | empty => exact ⟨trivial, trivial⟩
  | leaf atom quantifier rest ih =>
    obtain ⟨atomFormed, quantifierFormed, restFormed⟩ := formed
    have inside : atom.atom.Every P := by
      cases atom <;> exact trivial
    exact every_prepend.mpr ⟨⟨leaf _ _ atomFormed quantifierFormed, inside⟩, ih restFormed⟩
  | group marked inside quantifier rest ihInside ihRest =>
    obtain ⟨_, insideFormed, quantifierFormed, restFormed⟩ := formed
    exact every_prepend.mpr
      ⟨⟨group inside _ quantifierFormed, ihInside insideFormed⟩, ihRest restFormed⟩
  | bar rest ih => exact ⟨trivial, ih formed⟩

private theorem QuantifierSyntax.ordered {q : QuantifierSyntax} (formed : q.WellFormed d) :
    q.quantifier.Ordered := by
  cases q with
  | absent => exact Quantifier.once_ordered
  | greedy w q => exact (QuantifierText.greedy (d := d) formed).ordered
  | reluctant w q => exact (QuantifierText.reluctant formed.1 formed.2).ordered

private theorem LeafSyntax.guaranteed {l : LeafSyntax} (formed : l.WellFormed d) {q : Quantifier}
    (ordered : q.Ordered) : Piece.Guaranteed d ⟨l.atom, q⟩ := by
  refine ⟨ordered, fun c same => ?_, fun s _ => s.inCodespace, fun r same => by cases l <;> cases same⟩
  cases l with
  | character c | charEscape w c =>
    cases same
    exact .inl c.valid
  | startAnchor =>
    cases same
    exact .inr ⟨formed, .inl rfl⟩
  | endAnchor =>
    cases same
    exact .inr ⟨formed, .inr rfl⟩
  | classEscape | classExpr | wildcard => cases same

private theorem PatternSyntax.guaranteed {e : PatternSyntax} (formed : e.WellFormed d) :
    e.regex.Every (·.Guaranteed d) := by
  refine e.every formed (fun l q leaf quantifier => ?_) (fun i q quantifier => ?_)
  · exact LeafSyntax.guaranteed leaf (QuantifierSyntax.ordered quantifier)
  · refine ⟨QuantifierSyntax.ordered quantifier, fun c same => ?_, fun s same => ?_, fun r same => ?_⟩
    · cases same
    · cases same
    · cases same
      exact i.branches_ne_nil

private theorem PatternSyntax.groupDepth_le (e : PatternSyntax) : e.regex.groupDepth ≤ e.depth := by
  induction e with
  | empty => exact Nat.zero_le _
  | leaf atom quantifier rest ih =>
    have flat : (Piece.mk atom.atom quantifier.quantifier).groupDepth = 0 := by
      cases atom <;> rfl
    rw [regex, Regex.groupDepth, branches, groupDepth_prepend, flat, Nat.zero_max]
    exact Nat.le_trans ih (Nat.le_max_right _ _)
  | group marked inside quantifier rest ihInside ihRest =>
    rw [regex, Regex.groupDepth, branches, groupDepth_prepend]
    exact Nat.max_le.mpr ⟨Nat.le_trans (Nat.succ_le_succ ihInside) (Nat.le_max_left _ _),
      Nat.le_trans ihRest (Nat.le_max_right _ _)⟩
  | bar rest ih => exact ih

open Nesting

variable {o : Nesting}

private theorem anchorOf_of_plain {c : Char} (plain : c ∉ d.metacharacters) : anchorOf d c = [] := by
  unfold anchorOf
  split
  · rename_i anchor
    rw [anchor.1, anchor.2, metacharacters_xpath] at plain
    simp at plain
  split
  · rename_i anchor
    rw [anchor.1, anchor.2, metacharacters_xpath] at plain
    simp at plain
  rfl

private theorem LeafSyntax.anchored {l : LeafSyntax} (formed : l.WellFormed d) (outside : o.Outside) :
    Anchored d o l.text (marksAmong l.atom.literals) := by
  have char {c : Char} {marks : List Nat} (neutral : Neutral c) (mark : anchorOf d c = marks) :
      Anchored d o [c] marks :=
    mark ▸ outside.anchored_char (step_of_neutral outside.2 neutral)
  cases l with
  | character c =>
    rw [LeafSyntax.atom, Atom.literals, marksAmong_char, ← anchorOf_of_plain formed]
    exact outside.anchored_char (step_of_plain formed outside.2)
  | charEscape w c =>
    rw [LeafSyntax.atom, Atom.literals, marksAmong_char]
    exact CharEscape.silent formed outside.2
  | classEscape w set => exact ClassEscape.silent formed outside.2
  | classExpr e => exact ClassSyntax.silent formed outside.2
  | wildcard => exact char (by decide) (by simp [anchorOf, LeafSyntax.atom, Atom.literals, marksAmong])
  | startAnchor =>
    have xpath : d = .xpath := formed
    exact char (by decide) (by simp [anchorOf, xpath, LeafSyntax.atom, Atom.literals, marksAmong, startMark])
  | endAnchor =>
    have xpath : d = .xpath := formed
    exact char (by decide) (by simp [anchorOf, xpath, LeafSyntax.atom, Atom.literals, marksAmong, endMark])

private theorem QuantifierSyntax.silent {q : QuantifierSyntax} (formed : q.WellFormed d)
    (outside : o.Outside) : Silent d o q.text := by
  cases q with
  | absent => exact silent_nil
  | greedy w q => exact (QuantifierText.greedy formed).silent outside.2
  | reluctant w q => exact (QuantifierText.reluctant formed.1 formed.2).silent outside.2

/-- A text leaves nothing open behind it, and its anchors are the marks of its tree. -/
theorem PatternSyntax.anchored {e : PatternSyntax} (formed : e.WellFormed d) (outside : o.Outside) :
    Anchored d o e.text (marksAmong e.regex.literals) := by
  induction e generalizing o with
  | empty => exact silent_nil
  | leaf atom quantifier rest ih =>
    obtain ⟨atomFormed, quantifierFormed, restFormed⟩ := formed
    have piece := (LeafSyntax.anchored atomFormed outside).append
      (QuantifierSyntax.silent quantifierFormed outside)
    rw [List.append_nil] at piece
    rw [regex, Regex.literals, branches, literals_prepend, marksAmong_append]
    exact piece.append (ih restFormed outside)
  | group marked inside quantifier rest ihInside ihRest =>
    obtain ⟨_, insideFormed, quantifierFormed, restFormed⟩ := formed
    have opened := outside_group outside
    have group : Anchored d o (opening marked ++ inside.text ++ [')'])
        (marksAmong inside.regex.literals) := by
      cases marked with
      | false => exact .group outside (ihInside insideFormed opened)
      | true =>
        -- The mark in front of what is inside has no anchor.
        have plain : Silent d (o.step '(') ['?', ':'] :=
          ⟨after_of_neutral opened.2 (by simp [Neutral]), anchors_eq_nil (by simp [anchorOf])⟩
        exact .group outside (plain.append (ihInside insideFormed opened))
    have piece := group.append (QuantifierSyntax.silent quantifierFormed outside)
    rw [List.append_nil] at piece
    rw [regex, Regex.literals, branches, literals_prepend, marksAmong_append]
    exact piece.append (ihRest restFormed outside)
  | bar rest ih =>
    have bar : Silent d o ['|'] :=
      ⟨step_of_neutral outside.2 (by decide), anchors_eq_nil (by simp [anchorOf])⟩
    exact bar.append (ih formed outside)

private theorem outside_start : Nesting.start.Outside := ⟨rfl, rfl⟩

/-- What a tree guarantees to the compiler. -/
theorem parse_guarantees {s : Settings} {text : String} {r : Regex} (parsed : parse s text = .ok r) :
    Guarantees s.dialect s.nestLimit text.toList r := by
  obtain ⟨e, derives⟩ := parse_eq_ok_iff_tree.mp parsed
  rw [derives.regex, derives.text]
  exact ⟨e.branches_ne_nil, e.guaranteed derives.wellFormed,
    Nat.le_trans e.groupDepth_le derives.depth,
    (PatternSyntax.anchored derives.wellFormed outside_start).anchors.symm⟩

/-- Of the four signs only the first and the last are anchors. -/
theorem parse_guarantees_twoAnchors :
    ∃ r, parse { dialect := .xpath, nestLimit := 2 } "(^|\\$[^a])+$" = .ok r ∧
      Guarantees .xpath 2 "(^|\\$[^a])+$".toList r ∧ marksAmong r.literals = [startMark, endMark] := by
  have accepted : (parse { dialect := .xpath, nestLimit := 2 } "(^|\\$[^a])+$").isOk = true := by
    decide +kernel
  cases parsed : parse { dialect := .xpath, nestLimit := 2 } "(^|\\$[^a])+$" with
  | ok r =>
    have guarantees := parse_guarantees parsed
    exact ⟨r, rfl, guarantees, guarantees.marks.trans (by decide +kernel)⟩
  | error e =>
    rw [parsed] at accepted
    cases accepted

end Pattern

end SchemaRegex

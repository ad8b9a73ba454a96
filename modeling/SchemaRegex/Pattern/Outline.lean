import SchemaRegex.Pattern.Regex
import SchemaRegex.Text.Outline

/-!
# The outline of a tree

The tree of a pattern as nested blocks, with every set and every quantifier written out.
-/

namespace SchemaRegex

open Text (Outline)

def CodepointSet.outline (s : CodepointSet) : Outline :=
  let ranges := s.ranges.toList.map fun r => Outline.pair (.number r.lo) (.number r.hi)
  .record "Predicate" [("ranges", .list ranges)]

def Quantifier.outline (q : Quantifier) : Outline :=
  let max := match q.max with
    | none => Outline.leaf "None"
    | some max => .wrapped "Some" (.number max)
  .record "Quantifier" [("min", .number q.min), ("max", max)]

mutual

def Atom.outline : Atom → Outline
  | .literal c => .wrapped "Codepoint" (.number c)
  | .set s => .wrapped "Predicate" s.outline
  | .group r => .wrapped "RegExp" r.outline

def Piece.outline : Piece → Outline
  | ⟨atom, quantifier⟩ =>
    .record "Piece" [("atom", atom.outline), ("quantifier", quantifier.outline)]

def piecesOutline : List Piece → List Outline
  | [] => []
  | p :: ps => p.outline :: piecesOutline ps

def Branch.outline : Branch → Outline
  | ⟨pieces⟩ => .record "Branch" [("pieces", .list (piecesOutline pieces))]

def branchesOutline : List Branch → List Outline
  | [] => []
  | b :: bs => b.outline :: branchesOutline bs

def Regex.outline : Regex → Outline
  | ⟨branches⟩ => .record "RegExp" [("branches", .list (branchesOutline branches))]

end

end SchemaRegex

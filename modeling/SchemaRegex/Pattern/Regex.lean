import SchemaRegex.CodepointSet.Basic
import SchemaRegex.Text.Numeral

/-!
# Regular expressions

The tree of a pattern. An expression is a list of branches, one of which has to match; a branch is
a sequence of pieces; a piece is an atom with the number of times it may occur. Character classes
are sets already. The anchors are the literals `startMark` and `endMark`.
-/

namespace SchemaRegex

/-- How often an atom may occur: at least `min` times, and at most `max` times if that is given. -/
structure Quantifier where
  min : Nat
  max : Option Nat
deriving DecidableEq, Repr

def Quantifier.once : Quantifier := ⟨1, some 1⟩

/-- The shortest text of a quantifier, but that `{1}` is written out. -/
def Quantifier.text : Quantifier → List Char
  | ⟨0, some 1⟩ => ['?']
  | ⟨0, none⟩ => ['*']
  | ⟨1, none⟩ => ['+']
  | ⟨n, none⟩ => '{' :: Text.numeral 10 n ++ [',', '}']
  | ⟨n, some m⟩ =>
    if n = m then '{' :: Text.numeral 10 n ++ ['}']
    else '{' :: Text.numeral 10 n ++ ',' :: Text.numeral 10 m ++ ['}']

instance : ToString Quantifier where
  toString q := String.ofList q.text

mutual

inductive Atom where
  | literal (c : Nat)
  | set (s : CodepointSet)
  | group (r : Regex)

structure Piece where
  atom : Atom
  quantifier : Quantifier

structure Branch where
  pieces : List Piece

structure Regex where
  branches : List Branch

end

end SchemaRegex

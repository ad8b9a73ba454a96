import SchemaRegex.Codepoint
import SchemaRegex.Pattern.Dialect
import SchemaRegex.Pattern.Regex
import SchemaRegex.Program.Assembler

/-!
# From an expression to a program

An expression becomes a jump to all its branches, and each branch ends with a jump behind the last
one. A quantifier repeats the program of its atom:

    a{2,3}       a{2,}        a*
    atom         atom         start: jump to body and end
    atom         start: atom  body:  atom
    jump to both jump to      jump to start
    atom         start, end   end:
    end:         end:

An XPath pattern may match any part of a subject, so the program takes any codepoints, the marks of
the two ends included, before and after the expression.
-/

namespace SchemaRegex

def Piece.anchor? (p : Piece) : Option Nat :=
  match p.atom with
  | .literal c => if (c = startMark ∨ c = endMark) ∧ p.quantifier = .once then some c else none
  | _ => none

namespace Assembly

def optionally (f : Assembly → Except AssemblyError Assembly) (a : Assembly) :
    Except AssemblyError Assembly := do
  let fork := a.location
  let a ← a.emit (.jump #[])
  let a ← a.land fork
  let a ← f a
  a.land fork

def loop (f : Assembly → Except AssemblyError Assembly) (a : Assembly) :
    Except AssemblyError Assembly := do
  let fork := a.location
  let a ← a.emit (.jump #[])
  let a ← a.land fork
  let a ← f a
  let a ← a.emit (.jump #[fork])
  a.land fork

def loopOnce (f : Assembly → Except AssemblyError Assembly) (a : Assembly) :
    Except AssemblyError Assembly := do
  let start := a.location
  let a ← f a
  let fork := a.location
  let a ← a.emit (.jump #[start])
  a.land fork

def quantified (q : Quantifier) (f : Assembly → Except AssemblyError Assembly) (a : Assembly) :
    Except AssemblyError Assembly :=
  match q.max with
  | some max => do times (max - q.min) (optionally f) (← times q.min f a)
  | none =>
    match q.min with
    | 0 => loop f a
    | n + 1 => do loopOnce f (← times n f a)

mutual

def addAtom : Atom → Assembly → Except AssemblyError Assembly
  | .literal c, a => a.emit (.literal c)
  | .set s, a => a.emit (.set s)
  | .group r, a => addRegex r a

def addPiece : Piece → Assembly → Except AssemblyError Assembly
  | ⟨atom, quantifier⟩, a => quantified quantifier (addAtom atom) a

/-- Adds pieces one after the other. Anchors match without using up a mark, so of equal anchors in a
row only the first is added. -/
def addPieces (previous : Option Nat) : List Piece → Assembly → Except AssemblyError Assembly
  | [], a => .ok a
  | p :: ps, a => do
    let a ← if p.anchor?.isSome ∧ p.anchor? = previous then .ok a else addPiece p a
    addPieces p.anchor? ps a

def addBranch : Branch → Assembly → Except AssemblyError Assembly
  | ⟨pieces⟩, a => addPieces none pieces a

/-- Adds branches, and sends the jump at `fork` to each. Gives the jumps that end the branches. -/
def addBranches (fork : Nat) (exits : List Nat) :
    List Branch → Assembly → Except AssemblyError (List Nat × Assembly)
  | [], a => .ok (exits.reverse, a)
  | b :: bs, a => do
    let a ← a.land fork
    let a ← addBranch b a
    let exit := a.location
    let a ← a.emit (.jump #[])
    addBranches fork (exit :: exits) bs a

def addRegex : Regex → Assembly → Except AssemblyError Assembly
  | ⟨branches⟩, a => do
    let fork := a.location
    let a ← a.emit (.jump #[])
    let (exits, a) ← addBranches fork [] branches a
    a.landAll exits

end

end Assembly

def Regex.compile (r : Regex) (d : Dialect) (limit : Nat) : Except AssemblyError Program := do
  let anything := Assembly.loop (·.emit .any)
  let a := Assembly.empty limit
  let a ← match d with
    | .xsd => a.addRegex r
    | .xpath => do anything (← (← anything a).addRegex r)
  return (← a.emit .accept).program

end SchemaRegex

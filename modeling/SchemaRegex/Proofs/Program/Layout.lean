import SchemaRegex.Pattern.Regex
import SchemaRegex.Program.Instruction

/-!
# The layout of a program

The instructions of an expression as a list, given where they start. No jump is left open in it.
-/

namespace SchemaRegex

abbrev Code := Nat → List Instruction

namespace Code

def one (instr : Instruction) : Code := fun _ => [instr]

def seq (c d : Code) : Code := fun l => c l ++ d (l + (c l).length)

def repeated : Nat → Code → Code
  | 0, _ => fun _ => []
  | n + 1, c => seq c (repeated n c)

def optional (c : Code) : Code := fun l =>
  .jump #[l + 1, l + 1 + (c (l + 1)).length] :: c (l + 1)

def star (c : Code) : Code := fun l =>
  .jump #[l + 1, l + (c (l + 1)).length + 2] :: c (l + 1) ++ [.jump #[l]]

def plus (c : Code) : Code := fun l => c l ++ [.jump #[l, l + (c l).length + 1]]

def quantified (q : Quantifier) (c : Code) : Code :=
  match q.max with
  | some max => seq (repeated q.min c) (repeated (max - q.min) (optional c))
  | none =>
    match q.min with
    | 0 => star c
    | n + 1 => seq (repeated n c) (plus c)

def joined (exit : Array Nat) : List Code → Code
  | [] => fun _ => []
  | c :: cs => seq c (seq (one (.jump exit)) (joined exit cs))

def starts : List Code → Nat → List Nat
  | [], _ => []
  | c :: cs, l => l :: starts cs (l + (c l).length + 1)

def exits : List Code → Nat → List Nat
  | [], _ => []
  | c :: cs, l => (l + (c l).length) :: exits cs (l + (c l).length + 1)

def choice (cs : List Code) : Code := fun l =>
  .jump (starts cs (l + 1)).toArray ::
    joined #[l + 1 + (joined #[] cs (l + 1)).length] cs (l + 1)

theorem length_joined (exit other : Array Nat) (cs : List Code) (l : Nat) :
    (joined exit cs l).length = (joined other cs l).length := by
  induction cs generalizing l with
  | nil => rfl
  | cons c cs ih => simp [joined, seq, one, ih]

end Code

mutual

def Atom.code : Atom → Code
  | .literal c => .one (.literal c)
  | .set s => .one (.set s)
  | .group r => r.code

def Piece.code : Piece → Code
  | ⟨atom, quantifier⟩ => .quantified quantifier atom.code

def piecesCode : List Piece → Code
  | [] => fun _ => []
  | p :: ps => .seq p.code (piecesCode ps)

def Branch.code : Branch → Code
  | ⟨pieces⟩ => piecesCode pieces

def branchCodes : List Branch → List Code
  | [] => []
  | b :: bs => b.code :: branchCodes bs

def Regex.code : Regex → Code
  | ⟨branches⟩ => .choice (branchCodes branches)

end

end SchemaRegex

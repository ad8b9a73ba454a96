import SchemaRegex.Program.Instruction

/-!
# Assembling a program

Instructions are added at the end of a program that may not grow beyond a limit. A jump is often
added before it is known where it goes; its targets are added later.
-/

namespace SchemaRegex

inductive AssemblyError where
  | tooLarge
  | noJumpAt (location : Nat)
deriving DecidableEq, Repr

structure Assembly where
  program : Program
  limit : Nat

namespace Assembly

def empty (limit : Nat) : Assembly := ⟨#[], limit⟩

def location (a : Assembly) : Nat := a.program.size

def emit (a : Assembly) (instr : Instruction) : Except AssemblyError Assembly :=
  if a.limit ≤ a.location then .error .tooLarge
  else .ok { a with program := a.program.push instr }

def addTarget (a : Assembly) (jump target : Nat) : Except AssemblyError Assembly :=
  match a.program[jump]? with
  | some (.jump _) =>
    .ok { a with program := a.program.modify jump fun
      | .jump targets => .jump (targets.push target)
      | instr => instr }
  | _ => .error (.noJumpAt jump)

def land (a : Assembly) (jump : Nat) : Except AssemblyError Assembly :=
  a.addTarget jump a.location

def landAll : List Nat → Assembly → Except AssemblyError Assembly
  | [], a => .ok a
  | jump :: jumps, a => do landAll jumps (← a.land jump)

def times : Nat → (Assembly → Except AssemblyError Assembly) → Assembly →
    Except AssemblyError Assembly
  | 0, _, a => .ok a
  | n + 1, f, a => do times n f (← f a)

end Assembly

end SchemaRegex

import SchemaRegex.Machine.Threads
import SchemaRegex.Program.Instruction

/-!
# Walks along jumps

A walk reaches all locations that jumps lead to, without taking anything off the input. Locations
still to visit are kept on a stack. What was reached before is not visited again, so walks into the
same set share their work, and every walk ends.
-/

namespace SchemaRegex

structure Walk where
  pending : List Nat
  reached : Threads

namespace Walk

def empty (capacity : Nat) : Walk := ⟨[], .empty capacity⟩

/-- Visits what is pending, the targets of a jump in order, until nothing is. Locations beyond the
program are left out. -/
def finish (p : Program) : Walk → Walk
  | ⟨[], reached⟩ => ⟨[], reached⟩
  | ⟨location :: pending, reached⟩ =>
    match p[location]? with
    | none => finish p ⟨pending, reached⟩
    | some instr =>
      match _new : reached.insert location with
      | (true, reached) => finish p ⟨instr.targets ++ pending, reached⟩
      | (false, reached) => finish p ⟨pending, reached⟩
termination_by w => (w.reached.room, w.pending.length)
decreasing_by
  · exact Prod.Lex.right _ (Nat.lt_succ_self _)
  · have fewer := Threads.room_insert (congrArg Prod.fst _new)
    rw [_new] at fewer
    exact Prod.Lex.left _ _ fewer
  · have same := Threads.insert_old (congrArg Prod.fst _new)
    rw [_new] at same
    subst same
    exact Prod.Lex.right _ (Nat.lt_succ_self _)

def visit (p : Program) (start : Nat) (w : Walk) : Walk :=
  finish p ⟨start :: w.pending, w.reached⟩

def clear (w : Walk) : Walk := ⟨w.pending, w.reached.clear⟩

end Walk

end SchemaRegex

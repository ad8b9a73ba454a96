import SchemaRegex.Machine.Walk

/-!
# The machine

The machine runs a program on some codepoints. All threads advance together, one codepoint at a
time, so nothing is tried twice. Its two sets of threads are cleared and used again for every
codepoint and for every input.
-/

namespace SchemaRegex

structure Machine where
  threads : Threads
  next : Walk

namespace Machine

def ofSize (size : Nat) : Machine := ⟨.empty size, .empty size⟩

def restart (p : Program) (m : Machine) : Machine :=
  let walk := Walk.visit p 0 ⟨m.next.pending, m.threads.clear⟩
  ⟨walk.reached, ⟨walk.pending, m.next.reached.clear⟩⟩

def advance (p : Program) (c : Nat) (walk : Walk) (location : Nat) : Walk :=
  match p[location]? with
  | some instr => if instr.takes c then walk.visit p (location + 1) else walk
  | none => walk

def step (p : Program) (c : Nat) (m : Machine) : Machine :=
  let walk := m.threads.items.foldl (advance p c) m.next
  ⟨walk.reached, ⟨walk.pending, m.threads.clear⟩⟩

def accepting (p : Program) (m : Machine) : Bool :=
  m.threads.items.any fun location => p[location]? = some .accept

def run (p : Program) : List Nat → Machine → Bool × Machine
  | [], m => (m.accepting p, m)
  | c :: input, m => if m.threads.isEmpty then (false, m) else run p input (m.step p c)

def accepts (p : Program) (input : List Nat) (m : Machine) : Bool × Machine :=
  run p input (m.restart p)

end Machine

end SchemaRegex

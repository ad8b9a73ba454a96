import SchemaRegex.Program.Instruction

/-!
# Paths through a program

A path jumps from location to location and takes codepoints off the input on the way. The number of
steps is part of a path, so that a path that goes round a loop can be cut into shorter ones.
-/

namespace SchemaRegex.Program

/-- In `n` steps from location `a` to location `b`, taking the codepoints `w`. -/
inductive Path (p : Program) : Nat → Nat → List Nat → Nat → Prop
  | here (a : Nat) : Path p 0 a [] a
  | jump {n a t b : Nat} {w : List Nat} {instr : Instruction} (found : p[a]? = some instr)
      (target : t ∈ instr.targets) (rest : Path p n t w b) : Path p (n + 1) a w b
  | take {n a c b : Nat} {w : List Nat} {instr : Instruction} (found : p[a]? = some instr)
      (takes : instr.takes c = true) (rest : Path p n (a + 1) w b) : Path p (n + 1) a (c :: w) b

def Leads (p : Program) (a : Nat) (w : List Nat) (b : Nat) : Prop := ∃ n, Path p n a w b

theorem Path.trans {p : Program} {n m a b c : Nat} {u v : List Nat} (first : Path p n a u b)
    (second : Path p m b v c) : Path p (n + m) a (u ++ v) c := by
  induction first with
  | here a => simpa using second
  | jump found target rest ih =>
    rw [Nat.add_right_comm]
    exact .jump found target (ih second)
  | take found takes rest ih =>
    rw [Nat.add_right_comm]
    exact .take found takes (ih second)

theorem leads_self (p : Program) (a : Nat) : Leads p a [] a := ⟨0, .here a⟩

theorem Leads.trans {p : Program} {a b c : Nat} {u v : List Nat} (first : Leads p a u b)
    (second : Leads p b v c) : Leads p a (u ++ v) c := by
  obtain ⟨n, first⟩ := first
  obtain ⟨m, second⟩ := second
  exact ⟨n + m, first.trans second⟩

theorem leads_jump {p : Program} {a t b : Nat} {w : List Nat} {instr : Instruction}
    (found : p[a]? = some instr) (target : t ∈ instr.targets) (rest : Leads p t w b) :
    Leads p a w b := by
  obtain ⟨n, rest⟩ := rest
  exact ⟨n + 1, .jump found target rest⟩

theorem leads_take {p : Program} {a c b : Nat} {w : List Nat} {instr : Instruction}
    (found : p[a]? = some instr) (takes : instr.takes c = true) (rest : Leads p (a + 1) w b) :
    Leads p a (c :: w) b := by
  obtain ⟨n, rest⟩ := rest
  exact ⟨n + 1, .take found takes rest⟩

theorem Leads.first_take {p : Program} {a b c : Nat} {w : List Nat} (leads : Leads p a (c :: w) b) :
    ∃ x instr, Leads p a [] x ∧ p[x]? = some instr ∧ instr.takes c = true ∧ Leads p (x + 1) w b := by
  obtain ⟨n, path⟩ := leads
  generalize taken : c :: w = u at path
  induction path with
  | here a => contradiction
  | @jump n a t b u instr found target rest ih =>
    obtain ⟨x, other, reach, place, takes, further⟩ := ih taken
    exact ⟨x, other, leads_jump found target reach, place, takes, further⟩
  | @take n a d b u instr found takes rest ih =>
    cases taken
    exact ⟨a, instr, leads_self p a, found, takes, n, rest⟩

theorem Leads.start_lt {p : Program} {a b : Nat} {w : List Nat} (leads : Leads p a w b)
    (inside : b < p.size) : a < p.size := by
  obtain ⟨n, path⟩ := leads
  cases path with
  | here => exact inside
  | jump found => exact (Array.getElem?_eq_some_iff.mp found).1
  | take found => exact (Array.getElem?_eq_some_iff.mp found).1

end SchemaRegex.Program

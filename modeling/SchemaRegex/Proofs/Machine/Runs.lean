import SchemaRegex.Proofs.Machine.Acceptance

/-!
# The runs of a program

A program is a graph with locations as its nodes. A run follows jumps without taking anything, takes
one codepoint at each other instruction, and ends at an `accept`. The machine finds out whether there
is a run for a word, for every program, whatever its jumps are (`machine_decides_runs`).
-/

namespace SchemaRegex

namespace Program

/-- Some run from this location takes the word. A jump leads to any target inside the program, and
there is nothing beyond the last location. -/
inductive Runs (p : Program) : Nat → List Nat → Prop
  | accept {a : Nat} (found : p[a]? = some .accept) : Runs p a []
  | any {a c : Nat} {w : List Nat} (found : p[a]? = some .any) (rest : Runs p (a + 1) w) :
    Runs p a (c :: w)
  | literal {a c : Nat} {w : List Nat} (found : p[a]? = some (.literal c))
    (rest : Runs p (a + 1) w) : Runs p a (c :: w)
  | set {a c : Nat} {w : List Nat} {s : CodepointSet} (found : p[a]? = some (.set s))
    (member : c ∈ s) (rest : Runs p (a + 1) w) : Runs p a (c :: w)
  | jump {a t : Nat} {w : List Nat} {targets : Array Nat} (found : p[a]? = some (.jump targets))
    (target : t ∈ targets) (inside : t < p.size) (rest : Runs p t w) : Runs p a w

variable {p : Program} {a b c : Nat} {w : List Nat}

private theorem Runs.of_takes {instr : Instruction} (found : p[a]? = some instr)
    (takes : instr.takes c = true) (rest : Runs p (a + 1) w) : Runs p a (c :: w) := by
  cases instr with
  | accept => cases takes
  | any => exact .any found rest
  | literal l =>
    have same : l = c := of_decide_eq_true takes
    subst same
    exact .literal found rest
  | set s => exact .set found (CodepointSet.contains_iff_mem.mp takes) rest
  | jump targets => cases takes

private theorem Runs.of_target {instr : Instruction} {t : Nat} (found : p[a]? = some instr)
    (target : t ∈ instr.targets) (inside : t < p.size) (rest : Runs p t w) : Runs p a w := by
  cases instr with
  | jump targets => exact .jump found (Array.mem_toList_iff.mp target) inside rest
  | _ => cases target

/-- A path to an `accept` never leaves the program on its way. -/
theorem runs_of_leads (leads : Leads p a w b) (found : p[b]? = some .accept) : Runs p a w := by
  have inside := (Array.getElem?_eq_some_iff.mp found).1
  obtain ⟨n, path⟩ := leads
  induction path with
  | here => exact .accept found
  | jump place target rest ih =>
    exact .of_target place target (Leads.start_lt ⟨_, rest⟩ inside) (ih found inside)
  | take place takes _ ih => exact .of_takes place takes (ih found inside)

private theorem leads_of_runs (runs : Runs p a w) : ∃ b, Leads p a w b ∧ p[b]? = some .accept := by
  induction runs with
  | @accept a found => exact ⟨a, leads_self p a, found⟩
  | any found _ ih =>
    obtain ⟨b, leads, last⟩ := ih
    exact ⟨b, leads_take found rfl leads, last⟩
  | literal found _ ih =>
    obtain ⟨b, leads, last⟩ := ih
    exact ⟨b, leads_take found (by simp [Instruction.takes]) leads, last⟩
  | set found member _ ih =>
    obtain ⟨b, leads, last⟩ := ih
    exact ⟨b, leads_take found (CodepointSet.contains_iff_mem.mpr member) leads, last⟩
  | jump found target _ _ ih =>
    obtain ⟨b, leads, last⟩ := ih
    exact ⟨b, leads_jump found (Array.mem_toList_iff.mpr target) leads, last⟩

private theorem leads_accept_iff_runs : (∃ b, Leads p a w b ∧ p[b]? = some .accept) ↔ Runs p a w := by
  constructor
  · intro given
    obtain ⟨b, leads, found⟩ := given
    exact runs_of_leads leads found
  · exact leads_of_runs

end Program

namespace Machine

def after (p : Program) (inputs : List (List Nat)) : Machine :=
  inputs.foldl (fun m input => (m.accepts p input).2) (ofSize p.size)

private theorem Ready.foldl {p : Program} {m : Machine} (ready : Ready p m) (inputs : List (List Nat)) :
    Ready p (inputs.foldl (fun m input => (m.accepts p input).2) m) := by
  induction inputs generalizing m with
  | nil => exact ready
  | cons input inputs ih => exact ih (accepts_ready input ready)

theorem ready_after (p : Program) (inputs : List (List Nat)) : Ready p (after p inputs) :=
  (ready_ofSize p).foldl inputs

end Machine

/-- The machine accepts a word exactly if there is a run for it, from the first location on. The
program may be empty, have loops of jumps, jumps without targets, and targets that do not exist; what
the machine was given before makes no difference. -/
theorem machine_decides_runs (p : Program) (inputs : List (List Nat)) (word : List Nat) :
    ((Machine.after p inputs).accepts p word).1 = true ↔ Program.Runs p 0 word :=
  (Machine.accepts_iff word (Machine.ready_after p inputs)).trans Program.leads_accept_iff_runs

end SchemaRegex

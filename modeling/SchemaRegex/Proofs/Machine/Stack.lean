import SchemaRegex.Proofs.Machine.Accumulation
import SchemaRegex.Proofs.Machine.Runs
import SchemaRegex.Proofs.Program.Closed

/-!
# What runs put on the stack

A run is a row of walks: one from the first location, and one from behind each instruction that takes a
codepoint. In a closed program none of them starts outside, since the last instruction takes nothing,
and none is led outside by a jump. A compiled program is closed, so its runs never look for an
instruction that is not there (`compiled_program_is_closed`). That these are all the walks of a run is
told by a machine that notes down where it sets out and otherwise does the same (`acceptsNoting`).
-/

namespace SchemaRegex

private theorem Program.Closed.size_pos {p : Program} (closed : p.Closed) : 0 < p.size := by
  apply Nat.pos_of_ne_zero
  intro nothing
  have last := closed.last
  rw [Array.eq_empty_of_size_eq_zero nothing] at last
  cases last

/-- The last instruction takes nothing. -/
theorem Program.Closed.succ_lt {p : Program} (closed : p.Closed) {a c : Nat} {instr : Instruction}
    (found : p[a]? = some instr) (takes : instr.takes c = true) : a + 1 < p.size := by
  have inside := (Array.getElem?_eq_some_iff.mp found).1
  rcases Nat.lt_or_eq_of_le (Nat.succ_le_of_lt inside) with before | last
  · exact before
  · have accept := closed.last
    rw [Array.back?_eq_getElem?, ← last, Nat.succ_sub_one, found] at accept
    cases accept
    cases takes

namespace Walk

private def Inside (p : Program) (w : Walk) : Prop := ∀ a ∈ w.pending, a < p.size

private theorem Inside.turn {p : Program} (closed : p.Closed) {w : Walk} (inside : w.Inside p) :
    (Walk.turn p w).Inside p := by
  obtain ⟨pending, reached⟩ := w
  cases pending with
  | nil => exact inside
  | cons location pending =>
    have others : ∀ a ∈ pending, a < p.size := fun a member => inside a (List.mem_cons_of_mem _ member)
    rw [Walk.turn]
    split
    · exact others
    · rename_i instr found
      split
      · intro a member
        rcases List.mem_append.mp member with target | other
        · obtain ⟨targets, jump, member⟩ := Program.jumps_of_target found target
          exact closed.targets location targets jump a member
        · exact others a other
      · exact others

private theorem Inside.turns {p : Program} (closed : p.Closed) {w : Walk} (inside : w.Inside p) (n : Nat) :
    ((Walk.turn p)^[n] w).Inside p := by
  induction n with
  | zero => exact inside
  | succ n ih =>
    rw [Function.iterate_succ_apply']
    exact ih.turn closed

private theorem Idle.inside_start {p : Program} {w : Walk} (idle : Idle p w) {start : Nat}
    (first : start < p.size) : Inside p ⟨start :: w.pending, w.reached⟩ := by
  rw [idle.pending]
  exact List.forall_mem_singleton.mpr first

end Walk

namespace Machine
open Walk

def walk? (p : Program) (c : Nat) (w : Walk) (location : Nat) : Option Walk :=
  match p[location]? with
  | some instr => if instr.takes c then some ⟨(location + 1) :: w.pending, w.reached⟩ else none
  | none => none

private def threadWalks (p : Program) (c : Nat) : List Nat → Walk → List Walk
  | [], _ => []
  | a :: locations, w => (walk? p c w a).toList ++ threadWalks p c locations (advance p c w a)

private def runWalks (p : Program) : List Nat → Machine → List Walk
  | [], _ => []
  | c :: input, m =>
    if m.threads.isEmpty then []
    else threadWalks p c m.threads.items.toList m.next ++ runWalks p input (m.step p c)

def walks (p : Program) (input : List Nat) (m : Machine) : List Walk :=
  ⟨0 :: m.next.pending, m.threads.clear⟩ :: runWalks p input (m.restart p)

section Noting

def visitNoting (p : Program) (start : Nat) (w : Walk) : StateM (List Walk) Walk := do
  modify (· ++ [⟨start :: w.pending, w.reached⟩])
  return w.visit p start

def restartNoting (p : Program) (m : Machine) : StateM (List Walk) Machine := do
  let walk ← visitNoting p 0 ⟨m.next.pending, m.threads.clear⟩
  return ⟨walk.reached, ⟨walk.pending, m.next.reached.clear⟩⟩

def advanceNoting (p : Program) (c : Nat) (walk : Walk) (location : Nat) : StateM (List Walk) Walk :=
  match p[location]? with
  | some instr => if instr.takes c then visitNoting p (location + 1) walk else return walk
  | none => return walk

def stepNoting (p : Program) (c : Nat) (m : Machine) : StateM (List Walk) Machine := do
  let walk ← m.threads.items.toList.foldlM (advanceNoting p c) m.next
  return ⟨walk.reached, ⟨walk.pending, m.threads.clear⟩⟩

def runNoting (p : Program) : List Nat → Machine → StateM (List Walk) (Bool × Machine)
  | [], m => return (m.accepting p, m)
  | c :: input, m => do
    if m.threads.isEmpty then return (false, m)
    runNoting p input (← m.stepNoting p c)

/-- The same run, by a machine that notes down each walk when it sets out on it. -/
def acceptsNoting (p : Program) (input : List Nat) (m : Machine) :
    StateM (List Walk) (Bool × Machine) := do
  runNoting p input (← m.restartNoting p)

variable (p : Program) (c : Nat) (noted : List Walk)

private theorem run_advanceNoting (w : Walk) (location : Nat) :
    (advanceNoting p c w location).run noted =
      (advance p c w location, noted ++ (walk? p c w location).toList) := by
  have nothing : (w, noted) = (w, noted ++ (none : Option Walk).toList) := by
    rw [Option.toList_none, List.append_nil]
  unfold advanceNoting advance walk?
  cases p[location]? with
  | none => exact nothing
  | some instr =>
    dsimp only
    split
    · rfl
    · exact nothing

private theorem run_foldlM_advanceNoting (locations : List Nat) (w : Walk) :
    (locations.foldlM (advanceNoting p c) w).run noted =
      (locations.foldl (advance p c) w, noted ++ threadWalks p c locations w) := by
  induction locations generalizing w noted with
  | nil =>
    rw [threadWalks, List.append_nil]
    rfl
  | cons a locations ih =>
    rw [List.foldlM_cons, StateT.run_bind, run_advanceNoting, threadWalks, ← List.append_assoc]
    exact ih _ _

private theorem run_stepNoting (m : Machine) :
    (m.stepNoting p c).run noted =
      (m.step p c, noted ++ threadWalks p c m.threads.items.toList m.next) := by
  rw [stepNoting, StateT.run_bind, run_foldlM_advanceNoting, step, ← Array.foldl_toList]
  rfl

private theorem run_runNoting (input : List Nat) (m : Machine) :
    (runNoting p input m).run noted = (run p input m, noted ++ runWalks p input m) := by
  induction input generalizing m noted with
  | nil =>
    rw [runWalks, List.append_nil]
    rfl
  | cons c input ih =>
    rw [runNoting, run, runWalks]
    split
    · rw [List.append_nil]
      rfl
    · rw [StateT.run_bind, run_stepNoting, ← List.append_assoc]
      exact ih _ _

/-- The answer is that of the machine, and the notes are the walks of the run. -/
theorem run_acceptsNoting (input : List Nat) (m : Machine) :
    (m.acceptsNoting p input).run [] = (m.accepts p input, m.walks p input) :=
  run_runNoting p _ input (m.restart p)

end Noting

variable {p : Program}

private theorem threadWalks_inside (closed : p.Closed) (c : Nat) (locations : List Nat) {w : Walk}
    (idle : Idle p w) : ∀ v ∈ threadWalks p c locations w, v.Inside p := by
  induction locations generalizing w with
  | nil => exact fun v member => absurd member List.not_mem_nil
  | cons a locations ih =>
    rw [threadWalks, List.forall_mem_append]
    refine ⟨fun v member => ?_, ih (advance_idle idle c a).1⟩
    rw [Option.mem_toList, walk?] at member
    split at member
    · rename_i instr found
      split at member
      · rename_i takes
        cases member
        exact idle.inside_start (closed.succ_lt found takes)
      · cases member
    · cases member

private theorem runWalks_inside (closed : p.Closed) (input : List Nat) {m : Machine} (ready : Ready p m) :
    ∀ v ∈ runWalks p input m, v.Inside p := by
  induction input generalizing m with
  | nil => exact fun v member => absurd member List.not_mem_nil
  | cons c input ih =>
    rw [runWalks]
    split
    · exact fun v member => absurd member List.not_mem_nil
    · rw [List.forall_mem_append]
      exact ⟨threadWalks_inside closed c _ ready.next, ih (step_ready ready c).1⟩

private theorem walks_inside (closed : p.Closed) (input : List Nat) {m : Machine} (ready : Ready p m) :
    ∀ v ∈ m.walks p input, v.Inside p := by
  rw [walks, List.forall_mem_cons]
  exact ⟨ready.cleared.inside_start closed.size_pos, runWalks_inside closed input (restart_ready ready).1⟩

end Machine

/-- Compiling never gives a target to an instruction that is no jump. A compiled program ends with its only
`accept`, its jumps lead to locations of it and, if no expression in the tree is without branches, every
jump leads somewhere. So nothing but locations of the program is ever put on the stack, in whatever run:
the walks are those that the machine notes down, and each goes turn by turn to the end that the machine
finds. -/
theorem compiled_program_is_closed (r : Regex) (d : Dialect) (limit : Nat) :
    (∀ location, r.compile d limit ≠ .error (.noJumpAt location)) ∧
      ∀ p, r.compile d limit = .ok p →
        p.Closed ∧ (r.Branched → p.Forked) ∧
          ∀ inputs word,
            let m := Machine.after p inputs
            (m.acceptsNoting p word).run [] = (m.accepts p word, m.walks p word) ∧
              ∀ w ∈ m.walks p word, (∃ turns, (Walk.turn p)^[turns] w = w.finish p) ∧
                ∀ turns, ∀ a ∈ ((Walk.turn p)^[turns] w).pending, a < p.size := by
  constructor
  · intro location failed
    cases compile_error failed
  · intro p compiled
    obtain ⟨closed, forked⟩ := compile_closed compiled
    refine ⟨closed, forked, fun inputs word => ⟨Machine.run_acceptsNoting p word _, fun w walk => ?_⟩⟩
    have inside := Machine.walks_inside closed word (Machine.ready_after p inputs) w walk
    exact ⟨Walk.exists_turns p w, inside.turns closed⟩

def nestedLoops : Regex :=
  ⟨[⟨[⟨.group ⟨[⟨[⟨.literal 0x61, ⟨0, none⟩⟩]⟩]⟩, ⟨0, none⟩⟩]⟩, ⟨[]⟩]⟩

def nestedLoopsProgram : Program :=
  #[.jump #[1, 9], .jump #[2, 8], .jump #[3], .jump #[4, 6], .literal 0x61, .jump #[3], .jump #[7],
    .jump #[1], .jump #[10], .jump #[10], .accept]

theorem compiled_program_is_closed_nested_loops :
    nestedLoops.compile .xsd 11 = .ok nestedLoopsProgram ∧ nestedLoops.Branched ∧
      nestedLoopsProgram.Closed ∧ nestedLoopsProgram.Forked ∧
        let m := Machine.after nestedLoopsProgram [[0x61]]
        (m.acceptsNoting nestedLoopsProgram [0x61, 0x61]).run [] =
            (m.accepts nestedLoopsProgram [0x61, 0x61], m.walks nestedLoopsProgram [0x61, 0x61]) ∧
          ∀ w ∈ m.walks nestedLoopsProgram [0x61, 0x61],
            ∀ turns, ∀ a ∈ ((Walk.turn nestedLoopsProgram)^[turns] w).pending, a < 11 := by
  have compiled : nestedLoops.compile .xsd 11 = .ok nestedLoopsProgram :=
    compile_of_fits nestedLoops .xsd (by decide)
  have branched : nestedLoops.Branched := by
    simp [nestedLoops, Regex.Branched, Regex.Every, BranchesEvery, Branch.Every, PiecesEvery, Piece.Every,
      Atom.Every, Piece.Branched]
  obtain ⟨closed, forked, runs⟩ := (compiled_program_is_closed nestedLoops .xsd 11).2 _ compiled
  obtain ⟨noted, inside⟩ := runs [[0x61]] [0x61, 0x61]
  exact ⟨compiled, branched, closed, forked branched, noted, fun w walk => (inside w walk).2⟩

end SchemaRegex

import Mathlib.Logic.Function.Iterate
import Mathlib.Logic.Relation
import SchemaRegex.Proofs.Machine.Closure

/-!
# Walks one after the other

Walks into the same set share their work: each stops where an earlier one has been. Between two walks
the set is closed under jumps, so in the end it has all that jumps lead to from any start given since it
was cleared, and nothing else (`walks_accumulate_reachable`).
-/

namespace SchemaRegex

namespace Program

def Jumps (p : Program) (a b : Nat) : Prop :=
  ∃ targets, p[a]? = some (.jump targets) ∧ b ∈ targets

theorem jumps_of_target {p : Program} {a t : Nat} {instr : Instruction} (found : p[a]? = some instr)
    (target : t ∈ instr.targets) : p.Jumps a t := by
  cases instr with
  | jump targets => exact ⟨targets, found, Array.mem_toList_iff.mp target⟩
  | _ => cases target

private theorem leads_nil_iff {p : Program} {a b : Nat} :
    Leads p a [] b ↔ Relation.ReflTransGen p.Jumps a b := by
  constructor
  · intro leads
    obtain ⟨n, path⟩ := leads
    generalize nothing : ([] : List Nat) = w at path
    induction path with
    | here => exact .refl
    | jump found target rest ih => exact .head (jumps_of_target found target) (ih nothing)
    | take => contradiction
  · intro reaches
    induction reaches using Relation.ReflTransGen.head_induction_on with
    | refl => exact leads_self p b
    | head step rest ih =>
      obtain ⟨targets, found, target⟩ := step
      exact leads_jump found (Array.mem_toList_iff.mpr target) ih

end Program

namespace Walk

/-- One turn of a walk takes the location on top off the stack. If that is a new one in the program, it
is reached now, and its targets are put on the stack. -/
def turn (p : Program) : Walk → Walk
  | ⟨[], reached⟩ => ⟨[], reached⟩
  | ⟨location :: pending, reached⟩ =>
    match p[location]? with
    | none => ⟨pending, reached⟩
    | some instr =>
      if (reached.insert location).1 then ⟨instr.targets ++ pending, (reached.insert location).2⟩
      else ⟨pending, reached⟩

/-- Every walk ends after some turns. -/
theorem exists_turns (p : Program) (w : Walk) : ∃ turns, (turn p)^[turns] w = finish p w := by
  fun_induction finish p w with
  | case1 reached => exact ⟨0, rfl⟩
  | case2 location pending reached outside ih =>
    obtain ⟨turns, ends⟩ := ih
    refine ⟨turns + 1, ?_⟩
    rw [Function.iterate_succ_apply, turn, outside]
    exact ends
  | case3 location pending reached instr found grown new ih =>
    obtain ⟨turns, ends⟩ := ih
    refine ⟨turns + 1, ?_⟩
    rw [Function.iterate_succ_apply, turn, found, new]
    exact ends
  | case4 location pending reached instr found same old ih =>
    obtain ⟨turns, ends⟩ := ih
    have kept : same = reached := by
      rw [← Threads.insert_old (congrArg Prod.fst old), old]
    subst kept
    refine ⟨turns + 1, ?_⟩
    rw [Function.iterate_succ_apply, turn, found, old]
    exact ends

inductive Request where
  | visit (start : Nat)
  | clear
deriving DecidableEq, Repr

def perform (p : Program) (w : Walk) : Request → Walk
  | .visit start => w.visit p start
  | .clear => w.clear

def after (p : Program) (requests : List Request) : Walk :=
  requests.foldl (perform p) (empty p.size)

def collect (starts : List Nat) : Request → List Nat
  | .visit start => starts ++ [start]
  | .clear => []

def startsSinceClear (requests : List Request) : List Nat := requests.foldl collect []

/-- Nothing is pending, and the set has each location of the program that jumps lead to from one of the
starts, each once. -/
structure Accumulates (p : Program) (starts : List Nat) (w : Walk) : Prop where
  pending : w.pending = []
  nodup : w.reached.toList.Nodup
  reachable : ∀ b, b ∈ w.reached.toList ↔
    b < p.size ∧ ∃ start ∈ starts, Relation.ReflTransGen p.Jumps start b

private theorem Idle.perform {p : Program} {w : Walk} (idle : Idle p w) (request : Request) :
    Idle p (w.perform p request) := by
  cases request with
  | visit start => exact visit_idle idle start
  | clear => exact idle_clear idle

private theorem Accumulates.perform {p : Program} {starts : List Nat} {w : Walk}
    (given : Accumulates p starts w) (idle : Idle p w) (request : Request) :
    Accumulates p (collect starts request) (w.perform p request) where
  pending := (idle.perform request).pending
  nodup := (idle.perform request).settled.consistent.nodup
  reachable b := by
    cases request with
    | visit start =>
      have before : b ∈ w.reached.items ↔ _ := Array.mem_toList_iff.symm.trans (given.reachable b)
      rw [Threads.toList, Array.mem_toList_iff, Walk.perform, mem_visit idle, before,
        Program.leads_nil_iff]
      simp only [collect, List.mem_append, List.mem_singleton, or_and_right, exists_or, exists_eq_left,
        and_or_left]
    | clear => simp [Walk.perform, clear, collect, Threads.toList]

private theorem Accumulates.foldl {p : Program} {starts : List Nat} {w : Walk}
    (given : Accumulates p starts w) (idle : Idle p w) (requests : List Request) :
    Accumulates p (requests.foldl collect starts) (requests.foldl (Walk.perform p) w) := by
  induction requests generalizing starts w with
  | nil => exact given
  | cons request requests ih => exact ih (given.perform idle request) (idle.perform request)

private theorem accumulates_after (p : Program) (requests : List Request) :
    Accumulates p (startsSinceClear requests) (after p requests) := by
  have fresh : Accumulates p [] (empty p.size) :=
    ⟨rfl, List.nodup_nil, fun b => by simp [empty, Threads.empty, Threads.toList]⟩
  exact fresh.foldl (idle_empty p) requests

private theorem Accumulates.perm {p : Program} {starts others : List Nat} {v w : Walk}
    (first : Accumulates p starts v) (second : Accumulates p others w)
    (same : ∀ a, a ∈ starts ↔ a ∈ others) : v.reached.toList.Perm w.reached.toList := by
  rw [List.perm_ext_iff_of_nodup first.nodup second.nodup]
  intro b
  rw [first.reachable, second.reachable]
  simp only [same]

end Walk

/-- Whatever is asked of a walk, every visit ends after some turns with nothing left to visit. The set
then has, each once, exactly the locations of the program that jumps lead to from some start given since
it was last cleared; in what order and how often these were given makes no difference. -/
theorem walks_accumulate_reachable (p : Program) (requests : List Walk.Request) :
    Walk.Accumulates p (Walk.startsSinceClear requests) (Walk.after p requests) ∧
      (∀ start, ∃ turns,
        (Walk.turn p)^[turns] ⟨start :: (Walk.after p requests).pending, (Walk.after p requests).reached⟩ =
          Walk.after p (requests ++ [.visit start])) ∧
      ∀ others, (∀ a, a ∈ Walk.startsSinceClear others ↔ a ∈ Walk.startsSinceClear requests) →
        (Walk.after p others).reached.toList.Perm (Walk.after p requests).reached.toList := by
  refine ⟨Walk.accumulates_after p requests, fun start => ?_, fun others same => ?_⟩
  · obtain ⟨turns, ends⟩ := Walk.exists_turns p
      ⟨start :: (Walk.after p requests).pending, (Walk.after p requests).reached⟩
    refine ⟨turns, ends.trans ?_⟩
    rw [Walk.after, Walk.after, List.foldl_append]
    rfl
  · exact (Walk.accumulates_after p others).perm (Walk.accumulates_after p requests) same

def circle : Program :=
  #[.jump #[2, 1, 9], .jump #[0, 3], .literal 0x61, .jump #[]]

theorem walks_accumulate_reachable_circle :
    (∀ a, a ∈ Walk.startsSinceClear [.visit 1, .visit 9, .visit 1] ↔
      a ∈ Walk.startsSinceClear [.visit 2, .clear, .visit 9, .visit 1]) ∧
      (Walk.after circle [.visit 1, .visit 9, .visit 1]).reached.toList.Perm
        (Walk.after circle [.visit 2, .clear, .visit 9, .visit 1]).reached.toList := by
  have same : ∀ a, a ∈ Walk.startsSinceClear [.visit 1, .visit 9, .visit 1] ↔
      a ∈ Walk.startsSinceClear [.visit 2, .clear, .visit 9, .visit 1] := by
    intro a
    simp only [Walk.startsSinceClear, Walk.collect, List.foldl_cons, List.foldl_nil, List.nil_append,
      List.cons_append, List.mem_cons, List.not_mem_nil, or_false]
    omega
  exact ⟨same, (walks_accumulate_reachable circle _).2.2 _ same⟩

end SchemaRegex

import SchemaRegex.Machine.Walk
import SchemaRegex.Proofs.Machine.InsertionOrder

/-!
# The order of a walk

A walk keeps on a stack what it has still to visit. A location may be there several times, and only when
it is taken off does the walk ask whether it was reached before. All the same it reaches locations in the
order of the search that finds a location and then, for each target of its jump in turn, all that is found
from there (`visit_appends_preorder`), whatever circles the jumps make.
-/

namespace SchemaRegex

namespace Program

def unseen (p : Program) (seen : List Nat) : List Nat := (List.range p.size).filter (· ∉ seen)

variable {p : Program} {seen : List Nat} {a : Nat}

private theorem length_unseen_append_le (p : Program) (seen more : List Nat) :
    (p.unseen (seen ++ more)).length ≤ (p.unseen seen).length := by
  apply List.Sublist.length_le
  apply List.monotone_filter_right
  intro b
  simp only [decide_eq_true_eq, List.mem_append, not_or]
  exact And.left

private theorem length_unseen_concat_lt (inside : a < p.size) (new : a ∉ seen) :
    (p.unseen (seen ++ [a])).length < (p.unseen seen).length := by
  have less : p.unseen (seen ++ [a]) = (p.unseen seen).filter (· ≠ a) := by
    simp [unseen, List.filter_filter, and_comm]
  rw [less]
  apply List.length_filter_lt_length_iff_exists.mpr
  exact ⟨a, List.mem_filter.mpr ⟨List.mem_range.mpr inside, by simpa using new⟩, by simp⟩

mutual

/-- What a search from `a` finds, in order, when some locations have been seen: nothing outside the program
and where it has been, otherwise `a` and then what is found from its targets. -/
def preorder (p : Program) (seen : List Nat) (a : Nat) : List Nat :=
  if new : a < p.size ∧ a ∉ seen then a :: preorders p (seen ++ [a]) p[a].targets else []
termination_by ((p.unseen seen).length, 0)
decreasing_by exact Prod.Lex.left _ _ (length_unseen_concat_lt new.1 new.2)

def preorders (p : Program) (seen : List Nat) : List Nat → List Nat
  | [] => []
  | a :: rest =>
    let found := preorder p seen a
    found ++ preorders p (seen ++ found) rest
termination_by starts => ((p.unseen seen).length, starts.length + 1)
decreasing_by
  · exact Prod.Lex.right _ (Nat.succ_pos _)
  · exact Prod.Lex.right' _ (length_unseen_append_le p seen _) (Nat.lt_succ_self _)

end

private theorem preorder_of_known (known : a < p.size → a ∈ seen) : p.preorder seen a = [] := by
  rw [preorder, dif_neg (fun new => new.2 (known new.1))]

private theorem preorder_of_new {instr : Instruction} (found : p[a]? = some instr) (new : a ∉ seen) :
    p.preorder seen a = a :: p.preorders (seen ++ [a]) instr.targets := by
  obtain ⟨inside, here⟩ := Array.getElem?_eq_some_iff.mp found
  rw [preorder, dif_pos ⟨inside, new⟩, here]

@[simp] theorem preorders_nil (p : Program) (seen : List Nat) : p.preorders seen [] = [] := by
  rw [preorders]

private theorem preorders_cons (p : Program) (seen : List Nat) (a : Nat) (rest : List Nat) :
    p.preorders seen (a :: rest) =
      p.preorder seen a ++ p.preorders (seen ++ p.preorder seen a) rest := by
  rw [preorders]

@[simp] theorem preorders_singleton (p : Program) (seen : List Nat) (a : Nat) :
    p.preorders seen [a] = p.preorder seen a := by
  rw [preorders_cons, preorders_nil, List.append_nil]

private theorem preorders_append (p : Program) (seen starts more : List Nat) :
    p.preorders seen (starts ++ more) =
      p.preorders seen starts ++ p.preorders (seen ++ p.preorders seen starts) more := by
  induction starts generalizing seen with
  | nil => simp
  | cons a rest ih =>
    rw [List.cons_append, preorders_cons, preorders_cons, ih]
    simp only [List.append_assoc]

private theorem preorders_cons_of_known (known : a < p.size → a ∈ seen) (rest : List Nat) :
    p.preorders seen (a :: rest) = p.preorders seen rest := by
  rw [preorders_cons, preorder_of_known known, List.nil_append, List.append_nil]

/-- The targets of a jump can be put before what was still to be searched, as on a stack. -/
theorem preorders_cons_of_new {instr : Instruction} (found : p[a]? = some instr) (new : a ∉ seen)
    (rest : List Nat) : p.preorders seen (a :: rest) =
      a :: p.preorders (seen ++ [a]) (instr.targets ++ rest) := by
  rw [preorders_cons, preorder_of_new found new, preorders_append]
  simp only [List.cons_append, List.append_assoc, List.nil_append]

end Program

private theorem Threads.isNew_iff {s : Threads} (sound : s.Consistent) (v : Nat) :
    (s.insert v).1 = true ↔ v < s.capacity ∧ v ∉ s.toList := by
  rw [insert_fst sound, toList, Array.mem_toList_iff]

namespace Walk

private theorem pending_finish (p : Program) (w : Walk) : (finish p w).pending = [] := by
  fun_induction finish p w with
  | case1 reached => rfl
  | case2 location pending reached outside ih => exact ih
  | case3 location pending reached instr found grown new ih => exact ih
  | case4 location pending reached instr found same old ih => exact ih

private theorem consistent_finish (p : Program) (w : Walk) (sound : w.reached.Consistent) :
    (finish p w).reached.Consistent := by
  fun_induction finish p w with
  | case1 reached => exact sound
  | case2 location pending reached outside ih => exact ih sound
  | case3 location pending reached instr found grown new ih =>
    have kept := Threads.consistent_insert sound location
    rw [new] at kept
    exact ih kept
  | case4 location pending reached instr found same old ih =>
    have kept := Threads.consistent_insert sound location
    rw [old] at kept
    exact ih kept

private def ahead (p : Program) (w : Walk) : List Nat := p.preorders w.reached.toList w.pending

private theorem toList_finish (p : Program) (w : Walk) (sound : w.reached.Consistent)
    (room : ∀ a ∈ w.ahead p, a < w.reached.capacity) :
    (finish p w).reached.toList = w.reached.toList ++ w.ahead p := by
  -- `ahead` speaks of the whole stack, so the hypothesis covers what waits below the targets.
  fun_induction finish p w with
  | case1 reached => simp [ahead]
  | case2 location pending reached outside ih =>
    have same : ahead p ⟨location :: pending, reached⟩ = ahead p ⟨pending, reached⟩ := by
      refine Program.preorders_cons_of_known (fun inside => ?_) pending
      rw [Array.getElem?_eq_getElem inside] at outside
      cases outside
    rw [same] at room ⊢
    exact ih sound room
  | case3 location pending reached instr found grown new ih =>
    have fresh : (reached.insert location).1 = true := congrArg Prod.fst new
    have next : grown = (reached.insert location).2 := (congrArg Prod.snd new).symm
    have absent := ((Threads.isNew_iff sound location).mp fresh).2
    have longer : grown.toList = reached.toList ++ [location] := by
      rw [next, Threads.toList_insert, fresh, if_pos rfl]
    have more : ahead p ⟨location :: pending, reached⟩ =
        location :: ahead p ⟨instr.targets ++ pending, grown⟩ := by
      rw [ahead, ahead, longer]
      exact Program.preorders_cons_of_new found absent pending
    have inside : ∀ a ∈ ahead p ⟨instr.targets ++ pending, grown⟩, a < grown.capacity := by
      intro a member
      rw [next, Threads.capacity_insert]
      exact room a (more ▸ List.mem_cons_of_mem location member)
    rw [more, ih (next ▸ Threads.consistent_insert sound location) inside, longer]
    simp only [List.append_assoc, List.singleton_append]
  | case4 location pending reached instr found same old ih =>
    have kept : same = reached := by
      rw [← Threads.insert_old (congrArg Prod.fst old), old]
    subst kept
    -- A location is refused too when it is beyond the capacity, which `room` excludes.
    have known : location ∈ same.toList := by
      by_contra absent
      have inside : location < same.capacity := by
        apply room
        rw [ahead, Program.preorders_cons_of_new found absent]
        exact List.mem_cons_self
      have fresh := (Threads.isNew_iff sound location).mpr ⟨inside, absent⟩
      rw [old] at fresh
      cases fresh
    have less : ahead p ⟨location :: pending, same⟩ = ahead p ⟨pending, same⟩ :=
      Program.preorders_cons_of_known (fun _ => known) pending
    rw [less] at room ⊢
    exact ih sound room

end Walk

/-- A visit leaves nothing pending, and appends to what was reached before exactly what the search finds
from its start, in the order of the search. The set may be any that insertions and clearings leave, as long
as it has room for what is found. -/
theorem visit_appends_preorder (p : Program) (n : Nat) (operations : List (Threads.Operation n))
    (start : Nat) (room : ∀ a ∈ p.preorder (Threads.after operations).toList start, a < n) :
    (Walk.visit p start ⟨[], Threads.after operations⟩).pending = [] ∧
      (Walk.visit p start ⟨[], Threads.after operations⟩).reached.Consistent ∧
        (Walk.visit p start ⟨[], Threads.after operations⟩).reached.toList =
          (Threads.after operations).toList ++ p.preorder (Threads.after operations).toList start := by
  have settled := Threads.settled_after operations
  have found : Walk.ahead p ⟨[start], Threads.after operations⟩ =
      p.preorder (Threads.after operations).toList start := p.preorders_singleton _ start
  refine ⟨Walk.pending_finish p _, Walk.consistent_finish p _ settled.consistent, ?_⟩
  rw [Walk.visit, Walk.toList_finish p _ settled.consistent, found]
  intro a member
  rw [found] at member
  rw [settled.capacity]
  exact room a member

def crossingJumps : Program :=
  #[.jump #[1, 3, 4], .jump #[2, 0], .jump #[4, 9], .literal 0x61, .jump #[2, 5, 3], .accept]

def clearedThreads : List (Threads.Operation 6) := [.insert 3, .clear, .insert 5]

theorem visit_appends_preorder_crossingJumps :
    (∀ a ∈ crossingJumps.preorder (Threads.after clearedThreads).toList 0, a < 6) ∧
      (Walk.visit crossingJumps 0 ⟨[], Threads.after clearedThreads⟩).pending = [] ∧
        (Walk.visit crossingJumps 0 ⟨[], Threads.after clearedThreads⟩).reached.toList =
          [5, 0, 1, 2, 4, 3] := by
  have seen : (Threads.after clearedThreads).toList = [5] := rfl
  have found : crossingJumps.preorder (Threads.after clearedThreads).toList 0 = [0, 1, 2, 4, 3] := by
    rw [seen]
    cbv
  have room : ∀ a ∈ crossingJumps.preorder (Threads.after clearedThreads).toList 0, a < 6 := by
    rw [found]
    decide
  obtain ⟨ended, _, reached⟩ := visit_appends_preorder crossingJumps 6 clearedThreads 0 room
  refine ⟨room, ended, ?_⟩
  rw [reached, found, seen]
  rfl

end SchemaRegex

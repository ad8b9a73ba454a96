import Mathlib.Data.List.Perm.Subperm
import SchemaRegex.Proofs.Machine.Threads

/-!
# Sets of threads in order of insertion

Whatever is inserted and cleared, a set of threads stands for the values since it was last cleared, each
where it first came. Its list of members is that list and its flags tell what is in it
(`threads_hold_distinct_values`). Clearing resets the flags of the listed members alone, so both have to
stay in step through every operation.
-/

namespace SchemaRegex

namespace Threads

inductive Operation (capacity : Nat) where
  | insert (location : Fin capacity)
  | clear
deriving DecidableEq, Repr

variable {n : Nat} {s : Threads} {vs : List Nat}

def perform (s : Threads) : Operation n → Threads
  | .insert v => (s.insert v).2
  | .clear => s.clear

def after (operations : List (Operation n)) : Threads := operations.foldl perform (.empty n)

def collect (vs : List Nat) : Operation n → List Nat
  | .insert v => vs ++ [v.val]
  | .clear => []

def insertedSinceClear (operations : List (Operation n)) : List Nat := operations.foldl collect []

structure Settled (n : Nat) (vs : List Nat) (s : Threads) : Prop where
  consistent : s.Consistent
  capacity : s.capacity = n
  members : s.toList = vs.eraseDups

private theorem Settled.mem_items (settled : s.Settled n vs) (v : Nat) : v ∈ s.items ↔ v ∈ vs := by
  rw [← List.mem_eraseDups (l := vs), ← settled.members]
  exact Array.mem_toList_iff.symm

private theorem Settled.isNew_iff (settled : s.Settled n vs) (v : Fin n) :
    (s.insert v).1 = true ↔ v.val ∉ vs := by
  rw [insert_fst settled.consistent, settled.capacity, settled.mem_items]
  exact and_iff_right v.isLt

theorem toList_insert (s : Threads) (v : Nat) :
    (s.insert v).2.toList = s.toList ++ if (s.insert v).1 then [v] else [] := by
  unfold insert
  split
  · exact Array.toList_push
  · exact (List.append_nil _).symm

private theorem eraseDups_concat (vs : List Nat) (v : Nat) :
    (vs ++ [v]).eraseDups = vs.eraseDups ++ if v ∈ vs then [] else [v] := by
  rw [List.eraseDups_append]
  by_cases old : v ∈ vs
  · simp [List.removeAll, old]
  · simp [List.removeAll, old, List.eraseDups_cons]

private theorem Settled.insert (settled : s.Settled n vs) (v : Fin n) :
    (s.insert v).2.Settled n (vs ++ [v.val]) where
  consistent := consistent_insert settled.consistent v
  capacity := (capacity_insert s v).trans settled.capacity
  members := by
    rw [toList_insert, settled.members, eraseDups_concat]
    by_cases old : v.val ∈ vs
    · have same : (s.insert v).1 = false := by
        rw [Bool.eq_false_iff, Ne, settled.isNew_iff]
        exact not_not_intro old
      simp [same, old]
    · simp [(settled.isNew_iff v).mpr old, old]

private theorem Settled.clear (settled : s.Settled n vs) : s.clear.Settled n [] where
  consistent := consistent_clear settled.consistent
  capacity := (capacity_clear s).trans settled.capacity
  members := rfl

private theorem Settled.perform (settled : s.Settled n vs) (operation : Operation n) :
    (s.perform operation).Settled n (collect vs operation) := by
  cases operation with
  | insert v => exact settled.insert v
  | clear => exact settled.clear

private theorem Settled.foldl (settled : s.Settled n vs) (operations : List (Operation n)) :
    (operations.foldl Threads.perform s).Settled n (operations.foldl collect vs) := by
  induction operations generalizing s vs with
  | nil => exact settled
  | cons operation operations ih => exact ih (settled.perform operation)

theorem settled_after (operations : List (Operation n)) :
    (after operations).Settled n (insertedSinceClear operations) := by
  have fresh : (empty n).Settled n [] :=
    ⟨consistent_empty n, Array.size_replicate, rfl⟩
  exact fresh.foldl operations

/-- Members without repetition, all of them below the capacity, are not more than there is room for. -/
theorem size_items_le (sound : s.Consistent) : s.items.size ≤ s.capacity := by
  have below : s.items.toList ⊆ List.range s.capacity := by
    intro v member
    exact List.mem_range.mpr (lt_capacity sound (Array.mem_toList_iff.mp member))
  simpa using (List.subperm_of_subset sound.nodup below).length_le

/-- What a set of threads with this capacity shows, for the values inserted since it was cleared. -/
structure ShowsDistinct (n : Nat) (vs : List Nat) (s : Threads) : Prop where
  iterates : s.toList = vs.eraseDups
  isEmpty : s.isEmpty = vs.eraseDups.isEmpty
  flagged : ∀ v, s.flags[v]? = some true ↔ v ∈ vs.eraseDups
  capacity : s.capacity = n
  bounded : s.items.size ≤ n
  answers : ∀ v : Fin n, (s.insert v).1 = true ↔ v.val ∉ vs

private theorem Settled.showsDistinct (settled : s.Settled n vs) : s.ShowsDistinct n vs where
  iterates := settled.members
  isEmpty := by
    rw [← settled.members]
    exact Array.isEmpty_toList.symm
  flagged v := by
    rw [settled.consistent.flagged, settled.mem_items, List.mem_eraseDups]
  capacity := settled.capacity
  bounded := settled.capacity ▸ size_items_le settled.consistent
  answers := settled.isNew_iff

end Threads

/-- Behind any insertions of locations below the capacity and clearings, a set of threads is the list of
the distinct values inserted since the last clearing, in the order of their first insertion. -/
theorem threads_hold_distinct_values (n : Nat) (operations : List (Threads.Operation n)) :
    (Threads.after operations).ShowsDistinct n (Threads.insertedSinceClear operations) :=
  (Threads.settled_after operations).showsDistinct

end SchemaRegex

import Mathlib.Data.List.Nodup
import SchemaRegex.Machine.Threads

/-!
# Sets of threads as sets

A set of threads is consistent when its flags say what its list of members says. Insertion and
clearing keep it so; membership after each is described without the flags.
-/

namespace SchemaRegex.Threads

structure Consistent (s : Threads) : Prop where
  nodup : s.items.toList.Nodup
  flagged : ∀ v, s.flags[v]? = some true ↔ v ∈ s.items

theorem consistent_empty (capacity : Nat) : (empty capacity).Consistent := by
  constructor
  · exact List.nodup_nil
  · intro v
    simp [empty, Array.getElem?_replicate]

theorem lt_capacity {s : Threads} (sound : s.Consistent) {v : Nat} (member : v ∈ s.items) :
    v < s.capacity := by
  have flag := (sound.flagged v).mpr member
  obtain ⟨inside, _⟩ := Array.getElem?_eq_some_iff.mp flag
  exact inside

theorem free_iff {s : Threads} (sound : s.Consistent) (v : Nat) :
    s.flags[v]? = some false ↔ v < s.capacity ∧ v ∉ s.items := by
  constructor
  · intro free
    obtain ⟨inside, _⟩ := Array.getElem?_eq_some_iff.mp free
    refine ⟨inside,?_⟩
    intro member
    rw [(sound.flagged v).mpr member] at free
    contradiction
  · intro given
    obtain ⟨inside, absent⟩ := given
    have value : s.flags[v]? = some s.flags[v] := Array.getElem?_eq_getElem inside
    cases bit : s.flags[v] with
    | false => rw [value, bit]
    | true => exact absurd ((sound.flagged v).mp (value.trans (congrArg some bit))) absent

theorem insert_fst {s : Threads} (sound : s.Consistent) (v : Nat) :
    (s.insert v).1 = true ↔ v < s.capacity ∧ v ∉ s.items := by
  rw [← free_iff sound]
  unfold insert
  split <;> simp_all

theorem mem_insert {s : Threads} (sound : s.Consistent) {v : Nat} (inside : v < s.capacity)
    (w : Nat) : w ∈ (s.insert v).2.items ↔ w ∈ s.items ∨ w = v := by
  unfold insert
  split
  · simp
  · rename_i taken
    have present : v ∈ s.items := by
      by_contra absent
      exact taken ((free_iff sound v).mpr ⟨inside, absent⟩)
    constructor
    · exact Or.inl
    · intro either
      cases either with
      | inl old => exact old
      | inr same => exact same ▸ present

@[simp] theorem capacity_insert (s : Threads) (v : Nat) : (s.insert v).2.capacity = s.capacity := by
  unfold insert
  split <;> simp [capacity]

theorem consistent_insert {s : Threads} (sound : s.Consistent) (v : Nat) :
    (s.insert v).2.Consistent := by
  unfold insert
  split
  · rename_i free
    obtain ⟨inside, absent⟩ := (free_iff sound v).mp free
    constructor
    · simp only [Array.toList_push]
      exact List.nodup_append.mpr ⟨sound.nodup, List.nodup_singleton v, by
        intro a old b new same
        rw [List.mem_singleton] at new
        subst new same
        exact absent (Array.mem_toList_iff.mp old)⟩
    · intro w
      rw [Array.getElem?_setIfInBounds, Array.mem_push, ← sound.flagged w]
      by_cases same : v = w
      · subst same
        have bound : v < s.flags.size := inside
        simp [bound]
      · simp [same, Ne.symm same]
  · exact sound

theorem flags_reset (items : List Nat) (flags : Array Bool) (v : Nat) :
    (items.foldl (fun flags location => flags.setIfInBounds location false) flags)[v]? = some true ↔
      flags[v]? = some true ∧ v ∉ items := by
  induction items generalizing flags with
  | nil => simp
  | cons item items ih =>
    rw [List.foldl_cons, ih, Array.getElem?_setIfInBounds]
    by_cases same : item = v
    · subst same
      simp
    · simp [same, Ne.symm same]

theorem size_reset (items : List Nat) (flags : Array Bool) :
    (items.foldl (fun flags location => flags.setIfInBounds location false) flags).size =
      flags.size := by
  induction items generalizing flags with
  | nil => rfl
  | cons item items ih => rw [List.foldl_cons, ih, Array.size_setIfInBounds]

@[simp] theorem capacity_clear (s : Threads) : s.clear.capacity = s.capacity := by
  simp only [clear, capacity, ← Array.foldl_toList]
  exact size_reset _ _

@[simp] theorem items_clear (s : Threads) : s.clear.items = #[] := rfl

theorem consistent_clear {s : Threads} (sound : s.Consistent) : s.clear.Consistent := by
  constructor
  · exact List.nodup_nil
  · intro v
    simp only [clear, ← Array.foldl_toList]
    rw [flags_reset, sound.flagged]
    simp

end SchemaRegex.Threads

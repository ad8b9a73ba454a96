import SchemaRegex.Machine.Walk
import SchemaRegex.Proofs.Machine.Path
import SchemaRegex.Proofs.Machine.Threads

/-!
# What a walk reaches

A walk ends with nothing pending, and has then reached what it had reached before and every location
of the program that jumps lead to from a pending one.
-/

namespace SchemaRegex.Walk
open Program

/-- Every jump from a member leads to a member, to a pending location or out of the program. -/
def Closed (p : Program) (reached : Threads) (pending : List Nat) : Prop :=
  ∀ a ∈ reached.items, ∀ instr, p[a]? = some instr → ∀ t ∈ instr.targets, t < p.size →
    t ∈ reached.items ∨ t ∈ pending

structure Settled (p : Program) (reached : Threads) : Prop where
  consistent : reached.Consistent
  capacity : reached.capacity = p.size
  closed : Closed p reached []

structure Finished (p : Program) (w r : Walk) : Prop where
  pending : r.pending = []
  settled : Settled p r.reached
  keeps : ∀ a ∈ w.reached.items, a ∈ r.reached.items
  visits : ∀ a ∈ w.pending, a < p.size → a ∈ r.reached.items
  reaches : ∀ b ∈ r.reached.items, b ∈ w.reached.items ∨ ∃ a ∈ w.pending, Leads p a [] b

theorem closed_drop {p : Program} {reached : Threads} {location : Nat} {pending : List Nat}
    (closed : Closed p reached (location :: pending))
    (known : location < p.size → location ∈ reached.items) : Closed p reached pending := by
  intro a member instr found t target inside
  cases closed a member instr found t target inside with
  | inl old => exact .inl old
  | inr waiting =>
    cases List.mem_cons.mp waiting with
    | inl same => subst same; exact .inl (known inside)
    | inr later => exact .inr later

theorem closed_insert {p : Program} {reached : Threads} {location : Nat} {pending : List Nat}
    {instr : Instruction} (sound : reached.Consistent) (room : location < reached.capacity)
    (found : p[location]? = some instr) (closed : Closed p reached (location :: pending)) :
    Closed p (reached.insert location).2 (instr.targets ++ pending) := by
  intro a member other place t target inside
  rw [Threads.mem_insert sound room] at member
  rw [Threads.mem_insert sound room, List.mem_append]
  cases member with
  | inl old =>
    cases closed a old other place t target inside with
    | inl known => exact .inl (.inl known)
    | inr waiting =>
      cases List.mem_cons.mp waiting with
      | inl same => exact .inl (.inr same)
      | inr later => exact .inr (.inr later)
  | inr same =>
    subst same
    rw [found] at place
    cases place
    exact .inr (.inl target)

theorem finished_skip {p : Program} {reached : Threads} {location : Nat} {pending : List Nat}
    {r : Walk} (known : location < p.size → location ∈ reached.items)
    (rest : Finished p ⟨pending, reached⟩ r) : Finished p ⟨location :: pending, reached⟩ r where
  pending := rest.pending
  settled := rest.settled
  keeps := rest.keeps
  visits := by
    intro a waiting inside
    cases List.mem_cons.mp waiting with
    | inl same => subst same; exact rest.keeps a (known inside)
    | inr later => exact rest.visits a later inside
  reaches := by
    intro b member
    cases rest.reaches b member with
    | inl old => exact .inl old
    | inr new =>
      obtain ⟨a, waiting, leads⟩ := new
      exact .inr ⟨a, List.mem_cons_of_mem _ waiting, leads⟩

theorem finished_insert {p : Program} {reached : Threads} {location : Nat} {pending : List Nat}
    {instr : Instruction} {r : Walk} (sound : reached.Consistent)
    (room : location < reached.capacity) (found : p[location]? = some instr)
    (rest : Finished p ⟨instr.targets ++ pending, (reached.insert location).2⟩ r) :
    Finished p ⟨location :: pending, reached⟩ r where
  pending := rest.pending
  settled := rest.settled
  keeps := by
    intro a old
    exact rest.keeps a ((Threads.mem_insert sound room a).mpr (.inl old))
  visits := by
    intro a waiting inside
    cases List.mem_cons.mp waiting with
    | inl same => exact rest.keeps a ((Threads.mem_insert sound room a).mpr (.inr same))
    | inr later => exact rest.visits a (List.mem_append_right _ later) inside
  reaches := by
    intro b member
    cases rest.reaches b member with
    | inl old =>
      cases (Threads.mem_insert sound room b).mp old with
      | inl older => exact .inl older
      | inr same => exact .inr ⟨location, List.mem_cons_self, same ▸ leads_self p location⟩
    | inr new =>
      obtain ⟨a, waiting, leads⟩ := new
      cases List.mem_append.mp waiting with
      | inl target =>
        exact .inr ⟨location, List.mem_cons_self, leads_jump found target leads⟩
      | inr later => exact .inr ⟨a, List.mem_cons_of_mem _ later, leads⟩

theorem finish_finished (p : Program) (w : Walk) (sound : w.reached.Consistent)
    (room : w.reached.capacity = p.size) (closed : Closed p w.reached w.pending) :
    Finished p w (finish p w) := by
  fun_induction finish p w with
  | case1 reached =>
    exact ⟨rfl, ⟨sound, room, closed⟩, fun _ old => old, fun _ waiting => (nomatch waiting),
      fun _ member => .inl member⟩
  | case2 location pending reached outside ih =>
    have known : location < p.size → location ∈ reached.items := by
      intro inside
      rw [Array.getElem?_eq_getElem inside] at outside
      contradiction
    exact finished_skip known (ih sound room (closed_drop closed known))
  | case3 location pending reached instr found grown new ih =>
    have inside : location < reached.capacity := by
      rw [room]
      exact (Array.getElem?_eq_some_iff.mp found).1
    have next : grown = (reached.insert location).2 := by rw [new]
    subst next
    refine finished_insert sound inside found (ih (Threads.consistent_insert sound location) ?_ ?_)
    · exact (Threads.capacity_insert reached location).trans room
    · exact closed_insert sound inside found closed
  | case4 location pending reached instr found same old ih =>
    have kept : same = reached := by
      rw [← Threads.insert_old (congrArg Prod.fst old), old]
    subst kept
    have known : location < p.size → location ∈ same.items := by
      intro inside
      by_contra absent
      have fresh := (Threads.insert_fst sound location).mpr ⟨room ▸ inside, absent⟩
      rw [old] at fresh
      contradiction
    exact finished_skip known (ih sound room (closed_drop closed known))

theorem Settled.leads {p : Program} {reached : Threads} (settled : Settled p reached) {a b : Nat}
    (leads : Leads p a [] b) (inside : b < p.size) (member : a ∈ reached.items) :
    b ∈ reached.items := by
  obtain ⟨n, path⟩ := leads
  generalize nothing : ([] : List Nat) = w at path
  induction path with
  | here => exact member
  | jump found target rest ih =>
    have entered : _ < p.size := Leads.start_lt ⟨_, rest⟩ inside
    cases settled.closed _ member _ found _ target entered with
    | inl known => exact ih inside known nothing
    | inr waiting => nomatch waiting
  | take => contradiction

structure Idle (p : Program) (w : Walk) : Prop where
  pending : w.pending = []
  settled : Settled p w.reached

theorem idle_empty (p : Program) : Idle p (empty p.size) where
  pending := rfl
  settled :=
    { consistent := Threads.consistent_empty p.size
      capacity := Array.size_replicate
      closed := fun _ member => by simp [empty, Threads.empty] at member }

theorem visit_finished {p : Program} {w : Walk} (idle : Idle p w) (start : Nat) :
    Finished p ⟨[start], w.reached⟩ (visit p start w) := by
  unfold visit
  rw [idle.pending]
  refine finish_finished p _ idle.settled.consistent idle.settled.capacity ?_
  intro a member instr found t target inside
  cases idle.settled.closed a member instr found t target inside with
  | inl known => exact .inl known
  | inr waiting => nomatch waiting

theorem visit_idle {p : Program} {w : Walk} (idle : Idle p w) (start : Nat) :
    Idle p (visit p start w) :=
  ⟨(visit_finished idle start).pending, (visit_finished idle start).settled⟩

/-- A visit adds exactly the locations that jumps lead to from its start. -/
theorem mem_visit {p : Program} {w : Walk} (idle : Idle p w) (start b : Nat) :
    b ∈ (visit p start w).reached.items ↔
      b ∈ w.reached.items ∨ b < p.size ∧ Leads p start [] b := by
  have finished := visit_finished idle start
  constructor
  · intro member
    cases finished.reaches b member with
    | inl old => exact .inl old
    | inr new =>
      obtain ⟨a, waiting, leads⟩ := new
      rw [List.mem_singleton] at waiting
      subst waiting
      have bound := Threads.lt_capacity finished.settled.consistent member
      rw [finished.settled.capacity] at bound
      exact .inr ⟨bound, leads⟩
  · intro either
    cases either with
    | inl old => exact finished.keeps b old
    | inr new =>
      obtain ⟨inside, leads⟩ := new
      have first := finished.visits start List.mem_cons_self (leads.start_lt inside)
      exact finished.settled.leads leads inside first

theorem idle_clear {p : Program} {w : Walk} (idle : Idle p w) : Idle p w.clear where
  pending := idle.pending
  settled := ⟨Threads.consistent_clear idle.settled.consistent,
    (Threads.capacity_clear _).trans idle.settled.capacity, fun _ member => by simp [clear] at member⟩

end SchemaRegex.Walk

import SchemaRegex.Machine.Run
import SchemaRegex.Proofs.Machine.Closure

/-!
# What the machine accepts

Before each codepoint the threads are the locations reached so far, closed under jumps. A run
therefore finds a match exactly if some path from the start takes the whole input and ends at an
`accept` (`accepts_iff`), whatever the machine has run before.
-/

namespace SchemaRegex.Machine
open Program Walk

structure Ready (p : Program) (m : Machine) : Prop where
  threads : Settled p m.threads
  next : Idle p m.next
  fresh : m.next.reached.items = #[]

/-- The location takes the codepoint, and `b` can be reached behind it without another one. -/
def Follows (p : Program) (c a b : Nat) : Prop :=
  ∃ instr, p[a]? = some instr ∧ instr.takes c = true ∧ b < p.size ∧ Leads p (a + 1) [] b

theorem ready_ofSize (p : Program) : Ready p (ofSize p.size) :=
  ⟨(idle_empty p).settled, idle_empty p, rfl⟩

theorem Ready.cleared {p : Program} {m : Machine} (ready : Ready p m) :
    Idle p ⟨m.next.pending, m.threads.clear⟩ :=
  idle_clear (w := ⟨m.next.pending, m.threads⟩) ⟨ready.next.pending, ready.threads⟩

theorem advance_idle {p : Program} {w : Walk} (idle : Idle p w) (c a : Nat) :
    Idle p (advance p c w a) ∧
      ∀ b, b ∈ (advance p c w a).reached.items ↔ b ∈ w.reached.items ∨ Follows p c a b := by
  unfold advance Follows
  split
  · rename_i instr found
    split
    · rename_i takes
      refine ⟨visit_idle idle (a + 1),?_⟩
      intro b
      rw [mem_visit idle]
      simp [found, takes]
    · rename_i refuses
      simp [found, refuses, idle]
  · rename_i outside
    simp [outside, idle]

theorem foldl_advance {p : Program} (c : Nat) (locations : List Nat) {w : Walk} (idle : Idle p w) :
    Idle p (locations.foldl (advance p c) w) ∧
      ∀ b, b ∈ (locations.foldl (advance p c) w).reached.items ↔
        b ∈ w.reached.items ∨ ∃ a ∈ locations, Follows p c a b := by
  induction locations generalizing w with
  | nil => simp [idle]
  | cons a locations ih =>
    obtain ⟨step, reached⟩ := advance_idle idle c a
    obtain ⟨idle, members⟩ := ih step
    refine ⟨idle,?_⟩
    intro b
    rw [List.foldl_cons, members, reached]
    simp [or_assoc]

theorem step_ready {p : Program} {m : Machine} (ready : Ready p m) (c : Nat) :
    Ready p (m.step p c) ∧
      ∀ b, b ∈ (m.step p c).threads.items ↔ ∃ a ∈ m.threads.items, Follows p c a b := by
  obtain ⟨idle, members⟩ := foldl_advance c m.threads.items.toList ready.next
  unfold step
  rw [← Array.foldl_toList]
  refine ⟨⟨idle.settled, ⟨idle.pending, ready.cleared.settled⟩, rfl⟩,?_⟩
  intro b
  rw [members, ready.fresh]
  simp

theorem restart_ready {p : Program} {m : Machine} (ready : Ready p m) :
    Ready p (m.restart p) ∧
      ∀ b, b ∈ (m.restart p).threads.items ↔ b < p.size ∧ Leads p 0 [] b := by
  have visited := visit_idle ready.cleared 0
  unfold restart
  refine ⟨⟨visited.settled, ⟨visited.pending, (idle_clear ready.next).settled⟩, rfl⟩,?_⟩
  intro b
  rw [mem_visit ready.cleared]
  simp [Threads.items_clear]

theorem accepting_iff {p : Program} {m : Machine} (ready : Ready p m) :
    m.accepting p = true ↔
      ∃ a ∈ m.threads.items, ∃ b, Leads p a [] b ∧ p[b]? = some .accept := by
  unfold accepting
  rw [Array.any_eq_true']
  constructor
  · intro given
    obtain ⟨a, member, found⟩ := given
    exact ⟨a, member, a, leads_self p a, by simpa using found⟩
  · intro given
    obtain ⟨a, member, b, leads, found⟩ := given
    have inside := (Array.getElem?_eq_some_iff.mp found).1
    exact ⟨b, ready.threads.leads leads inside member, by simpa using found⟩

/-- Threads closed under jumps lose nothing when they all take a codepoint. -/
theorem leads_step {p : Program} {m : Machine} (ready : Ready p m) (c : Nat) (input : List Nat) :
    (∃ a ∈ (m.step p c).threads.items, ∃ b, Leads p a input b ∧ p[b]? = some .accept) ↔
      ∃ a ∈ m.threads.items, ∃ b, Leads p a (c :: input) b ∧ p[b]? = some .accept := by
  constructor
  · intro given
    obtain ⟨x, member, b, leads, found⟩ := given
    obtain ⟨a, old, instr, place, takes, _, entered⟩ := ((step_ready ready c).2 x).mp member
    exact ⟨a, old, b, leads_take place takes (entered.trans leads), found⟩
  · intro given
    obtain ⟨a, member, b, leads, found⟩ := given
    have inside := (Array.getElem?_eq_some_iff.mp found).1
    obtain ⟨x, instr, reach, place, takes, further⟩ := leads.first_take
    have met := ready.threads.leads reach (Array.getElem?_eq_some_iff.mp place).1 member
    have follows : Follows p c x (x + 1) :=
      ⟨instr, place, takes, further.start_lt inside, leads_self p (x + 1)⟩
    exact ⟨x + 1, ((step_ready ready c).2 (x + 1)).mpr ⟨x, met, follows⟩, b, further, found⟩

theorem run_ready {p : Program} (input : List Nat) {m : Machine} (ready : Ready p m) :
    Ready p (run p input m).2 ∧ ((run p input m).1 = true ↔
      ∃ a ∈ m.threads.items, ∃ b, Leads p a input b ∧ p[b]? = some .accept) := by
  induction input generalizing m with
  | nil => exact ⟨ready, accepting_iff ready⟩
  | cons c input ih =>
    unfold run
    split
    · rename_i none
      have nobody : m.threads.items = #[] := by simpa [Threads.isEmpty] using none
      simp [ready, nobody]
    · obtain ⟨after, accepted⟩ := ih (step_ready ready c).1
      exact ⟨after, accepted.trans (leads_step ready c input)⟩

theorem accepts_ready {p : Program} (input : List Nat) {m : Machine} (ready : Ready p m) :
    Ready p (m.accepts p input).2 :=
  (run_ready input (restart_ready ready).1).1

theorem accepts_iff {p : Program} (input : List Nat) {m : Machine} (ready : Ready p m) :
    (m.accepts p input).1 = true ↔ ∃ b, Leads p 0 input b ∧ p[b]? = some .accept := by
  obtain ⟨started, threads⟩ := restart_ready ready
  unfold accepts
  rw [(run_ready input started).2]
  constructor
  · intro given
    obtain ⟨a, member, b, leads, found⟩ := given
    exact ⟨b, ((threads a).mp member).2.trans leads, found⟩
  · intro given
    obtain ⟨b, leads, found⟩ := given
    have inside := leads.start_lt (Array.getElem?_eq_some_iff.mp found).1
    exact ⟨0, (threads 0).mpr ⟨inside, leads_self p 0⟩, b, leads, found⟩

end SchemaRegex.Machine

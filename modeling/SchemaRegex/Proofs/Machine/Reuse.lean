import SchemaRegex.Proofs.Machine.Runs

/-!
# A machine used again

A run may stop early, as soon as no thread is left, or at the end of its input. Either way every flag
that is set belongs to a listed thread, so clearing the lists clears the flags too. A machine that starts
again is therefore the same as a new one that starts (`Ready.restart_eq`), and so are its answer and what
the run leaves (`machine_carries_nothing_over`).
-/

namespace SchemaRegex

private theorem Threads.clear_eq_empty {s : Threads} (sound : s.Consistent) :
    s.clear = .empty s.capacity := by
  have size : s.clear.flags.size = s.capacity := capacity_clear s
  have unset (v : Nat) (inside : v < s.clear.flags.size) : s.clear.flags[v] = false := by
    rw [Bool.eq_false_iff]
    intro set
    have member := ((consistent_clear sound).flagged v).mp (Array.getElem?_eq_some_iff.mpr ⟨inside, set⟩)
    rw [items_clear] at member
    exact Array.not_mem_empty v member
  have flags : s.clear.flags = .replicate s.capacity false := by
    apply Array.ext
    · rw [size, Array.size_replicate]
    · intro v inside _
      rw [unset v inside, Array.getElem_replicate]
  rw [empty, ← flags]
  rfl

namespace Machine

/-- Whatever a machine has run before, it starts like a new one. -/
theorem Ready.restart_eq {p : Program} {m : Machine} (ready : Ready p m) :
    m.restart p = (ofSize p.size).restart p := by
  have threads : m.threads.clear = .empty p.size := by
    rw [Threads.clear_eq_empty ready.threads.consistent, ready.threads.capacity]
  have next : m.next.reached.clear = .empty p.size := by
    rw [Threads.clear_eq_empty ready.next.settled.consistent, ready.next.settled.capacity]
  have cleared : (Threads.empty p.size).clear = .empty p.size := by
    rw [Threads.clear_eq_empty (Threads.consistent_empty p.size)]
    exact congrArg Threads.empty Array.size_replicate
  unfold restart
  rw [threads, next, ready.next.pending, ofSize, Walk.empty, cleared]

private theorem Ready.accepts_eq {p : Program} {m : Machine} (ready : Ready p m) (word : List Nat) :
    m.accepts p word = (ofSize p.size).accepts p word := by
  rw [accepts, accepts, ready.restart_eq]

def answers (p : Program) : List (List Nat) → Machine → List Bool
  | [], _ => []
  | input :: inputs, m => (m.accepts p input).1 :: answers p inputs (m.accepts p input).2

private theorem Ready.answers_eq {p : Program} {m : Machine} (ready : Ready p m) (inputs : List (List Nat)) :
    answers p inputs m = inputs.map fun input => ((ofSize p.size).accepts p input).1 := by
  induction inputs generalizing m with
  | nil => rfl
  | cons input inputs ih =>
    rw [answers, List.map_cons, ih (accepts_ready input ready), ready.accepts_eq input]

end Machine

/-- One machine answers to each of some inputs as a new machine does to that input alone, and after all of
them a run gives the answer that a new machine gives and leaves the machine that this leaves. -/
theorem machine_carries_nothing_over (p : Program) (inputs : List (List Nat)) :
    Machine.answers p inputs (.ofSize p.size) =
        inputs.map (fun input => ((Machine.ofSize p.size).accepts p input).1) ∧
      ∀ word, (Machine.after p inputs).accepts p word = (Machine.ofSize p.size).accepts p word :=
  ⟨(Machine.ready_ofSize p).answers_eq inputs, (Machine.ready_after p inputs).accepts_eq⟩

end SchemaRegex

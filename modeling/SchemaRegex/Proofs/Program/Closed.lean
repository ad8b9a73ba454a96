import SchemaRegex.Proofs.Program.Emission

/-!
# Closed programs

Code may jump to the place behind it, where nothing is yet while it is laid out. In a whole program that
is the place of other code or of the `accept` at the end, so all targets are inside (`compile_closed`).
-/

namespace SchemaRegex

/-- An instruction of code that stops at a location: it is no `accept`, and a jump leads no further than
there. If `forked` holds, a jump has a target. -/
def Instruction.Within (forked : Prop) (stop : Nat) : Instruction → Prop
  | accept => False
  | jump targets => (∀ t ∈ targets, t ≤ stop) ∧ (forked → targets ≠ #[])
  | any => True
  | literal _ => True
  | set _ => True

section

variable {forked : Prop}

theorem Instruction.Within.mono {instr : Instruction} {stop later : Nat}
    (within : instr.Within forked stop) (further : stop ≤ later) : instr.Within forked later := by
  cases instr with
  | jump targets => exact ⟨fun t target => Nat.le_trans (within.1 t target) further, within.2⟩
  | _ => exact within

theorem within_jump_pair {s t stop : Nat} (first : s ≤ stop) (second : t ≤ stop) :
    (Instruction.jump #[s, t]).Within forked stop := by
  simp [Instruction.Within, first, second]

theorem within_jump_single {t stop : Nat} (target : t ≤ stop) :
    (Instruction.jump #[t]).Within forked stop := by
  simp [Instruction.Within, target]

namespace Code

def Within (forked : Prop) (c : Code) : Prop :=
  ∀ l, ∀ instr ∈ c l, instr.Within forked (l + (c l).length)

variable {c d : Code}

theorem within_one {instr : Instruction} (within : ∀ stop, instr.Within forked stop) :
    (one instr).Within forked := by
  intro l other member
  rw [List.mem_singleton.mp member]
  exact within _

theorem Within.seq (first : c.Within forked) (second : d.Within forked) :
    (c.seq d).Within forked := by
  intro l instr member
  rw [Code.seq, List.length_append, ← Nat.add_assoc]
  rcases List.mem_append.mp member with front | back
  · exact (first l instr front).mono (Nat.le_add_right _ _)
  · exact second _ instr back

theorem Within.repeated (within : c.Within forked) (n : Nat) :
    (Code.repeated n c).Within forked := by
  induction n with
  | zero => exact fun l instr member => absurd member List.not_mem_nil
  | succ n ih => exact within.seq ih

theorem Within.optional (within : c.Within forked) : c.optional.Within forked := by
  intro l
  rw [Code.optional, List.length_cons, List.forall_mem_cons]
  refine ⟨within_jump_pair (by omega) (by omega), fun instr member => ?_⟩
  exact (within (l + 1) instr member).mono (by omega)

theorem Within.star (within : c.Within forked) : c.star.Within forked := by
  intro l
  rw [Code.star, List.cons_append, List.length_cons, List.length_append, List.length_singleton,
    List.forall_mem_cons, List.forall_mem_append, List.forall_mem_singleton]
  refine ⟨within_jump_pair (by omega) (by omega), fun instr member => ?_, within_jump_single (by omega)⟩
  exact (within (l + 1) instr member).mono (by omega)

theorem Within.plus (within : c.Within forked) : c.plus.Within forked := by
  intro l
  rw [Code.plus, List.length_append, List.length_singleton, List.forall_mem_append,
    List.forall_mem_singleton]
  refine ⟨fun instr member => ?_, within_jump_pair (by omega) (by omega)⟩
  exact (within l instr member).mono (by omega)

theorem Within.quantified (within : c.Within forked) (q : Quantifier) :
    (Code.quantified q c).Within forked := by
  obtain ⟨min, max⟩ := q
  cases max with
  | some max => exact (within.repeated min).seq (within.optional.repeated (max - min))
  | none =>
    cases min with
    | zero => exact within.star
    | succ n => exact (within.repeated n).seq within.plus

theorem le_of_mem_starts {s l : Nat} (exit : Array Nat) {cs : List Code} (start : s ∈ starts cs l) :
    s ≤ l + (joined exit cs l).length := by
  induction cs generalizing l with
  | nil => cases start
  | cons c cs ih =>
    rw [joined, seq, seq, one, List.length_append, List.length_append, List.length_singleton]
    rcases List.mem_cons.mp start with here | behind
    · omega
    · have later := ih behind
      rw [Nat.add_assoc] at later ⊢
      simpa [Nat.add_assoc] using later

theorem within_joined {cs : List Code} (within : ∀ c ∈ cs, c.Within forked) {e l : Nat}
    (stop : l + (joined #[e] cs l).length ≤ e) : ∀ instr ∈ joined #[e] cs l, instr.Within forked e := by
  induction cs generalizing l with
  | nil => exact fun instr member => absurd member List.not_mem_nil
  | cons c cs ih =>
    rw [List.forall_mem_cons] at within
    simp only [joined, seq, one, List.length_append, List.length_singleton, List.forall_mem_append,
      List.forall_mem_singleton] at stop ⊢
    refine ⟨fun instr member => ?_, within_jump_single (Nat.le_refl e), ih within.2 (by omega)⟩
    exact (within.1 l instr member).mono (by omega)

theorem within_choice {cs : List Code} (within : ∀ c ∈ cs, c.Within forked) (some : forked → cs ≠ []) :
    (choice cs).Within forked := by
  intro l
  have size := length_joined #[l + 1 + (joined #[] cs (l + 1)).length] #[] cs (l + 1)
  rw [choice, List.length_cons, List.forall_mem_cons]
  refine ⟨⟨fun t target => ?_, fun given => ?_⟩, fun instr member => ?_⟩
  · have start := le_of_mem_starts #[] (List.mem_toArray.mp target)
    omega
  · obtain ⟨c, cs, same⟩ := List.exists_cons_of_ne_nil (some given)
    simp [same, starts]
  · exact (within_joined within (by omega) instr member).mono (by omega)

end Code

def Piece.Branched (p : Piece) : Prop := ∀ r, p.atom = .group r → r.branches ≠ []

def Regex.Branched (r : Regex) : Prop := r.branches ≠ [] ∧ r.Every Piece.Branched

mutual

private theorem Atom.code_within : (x : Atom) →
    (forked → (∀ r, x = .group r → r.branches ≠ []) ∧ x.Every Piece.Branched) →
    x.merged.code.Within forked
  | .literal _, _ => Code.within_one fun _ => trivial
  | .set _, _ => Code.within_one fun _ => trivial
  | .group r, branched => Regex.code_within r fun given =>
    ⟨(branched given).1 r rfl, (branched given).2⟩

private theorem Piece.code_within : (p : Piece) → (forked → p.Every Piece.Branched) →
    p.merged.code.Within forked
  | ⟨atom, quantifier⟩, branched => (Atom.code_within atom branched).quantified quantifier

private theorem pieces_code_within (previous : Option Nat) : (ps : List Piece) →
    (forked → PiecesEvery Piece.Branched ps) → (piecesCode (mergedPieces previous ps)).Within forked
  | [], _ => fun _ _ member => absurd member List.not_mem_nil
  | p :: ps, branched => by
    have others := pieces_code_within p.anchor? ps fun given => (branched given).2
    rw [mergedPieces]
    split
    · exact others
    · exact (Piece.code_within p fun given => (branched given).1).seq others

private theorem Branch.code_within : (b : Branch) → (forked → b.Every Piece.Branched) →
    b.merged.code.Within forked
  | ⟨pieces⟩, branched => pieces_code_within none pieces branched

private theorem branches_code_within : (bs : List Branch) → (forked → BranchesEvery Piece.Branched bs) →
    ∀ c ∈ branchCodes (mergedBranches bs), c.Within forked
  | [], _ => fun _ member => absurd member List.not_mem_nil
  | b :: bs, branched => List.forall_mem_cons.mpr
    ⟨Branch.code_within b fun given => (branched given).1,
      branches_code_within bs fun given => (branched given).2⟩

theorem Regex.code_within : (r : Regex) → (forked → r.Branched) → r.merged.code.Within forked
  | ⟨branches⟩, branched => by
    refine Code.within_choice (branches_code_within branches fun given => (branched given).2) ?_
    intro given
    obtain ⟨b, bs, same⟩ := List.exists_cons_of_ne_nil (branched given).1
    subst same
    exact List.cons_ne_nil _ _

end

end

namespace Program

structure Closed (p : Program) : Prop where
  last : p.back? = some .accept
  only : ∀ a : Nat, p[a]? = some .accept → a + 1 = p.size
  targets : ∀ (a : Nat) (targets : Array Nat), p[a]? = some (.jump targets) → ∀ t ∈ targets, t < p.size

def Forked (p : Program) : Prop :=
  ∀ (a : Nat) (targets : Array Nat), p[a]? = some (.jump targets) → targets ≠ #[]

theorem getElem?_accepting {code : List Instruction} {a : Nat} {instr : Instruction}
    (found : (code ++ [Instruction.accept]).toArray[a]? = some instr) :
    instr ∈ code ∨ a = code.length ∧ instr = .accept := by
  rw [List.getElem?_toArray, List.getElem?_append] at found
  split at found
  · exact .inl (List.mem_of_getElem? found)
  · obtain ⟨place, same⟩ := List.getElem?_eq_some_iff.mp found
    have first : a - code.length = 0 := Nat.lt_one_iff.mp place
    simp only [first, List.getElem_cons_zero] at same
    exact .inr ⟨by omega, same.symm⟩

theorem closed_of_within {forked : Prop} {code : List Instruction}
    (within : ∀ instr ∈ code, instr.Within forked code.length) :
    Closed (code ++ [Instruction.accept]).toArray ∧ (forked → Forked (code ++ [Instruction.accept]).toArray) := by
  have size : (code ++ [Instruction.accept]).toArray.size = code.length + 1 := by simp
  refine ⟨⟨by simp, fun a found => ?_, fun a targets found => ?_⟩, fun given a targets found => ?_⟩
  · rcases getElem?_accepting found with inner | ⟨place, _⟩
    · exact (within _ inner).elim
    · rw [size, place]
  · rcases getElem?_accepting found with inner | ⟨_, other⟩
    · intro t target
      rw [size]
      exact Nat.lt_succ_of_le ((within _ inner).1 t target)
    · cases other
  · rcases getElem?_accepting found with inner | ⟨_, other⟩
    · exact (within _ inner).2 given
    · cases other

end Program

theorem layout_eq_seq_accept (r : Regex) (d : Dialect) :
    ∃ body : Code, r.layout d = body.seq (.one .accept) ∧ body.Within r.Branched := by
  have regex : r.merged.code.Within r.Branched := Regex.code_within r id
  have any : (Code.one .any).Within r.Branched := Code.within_one fun _ => trivial
  cases d with
  | xsd => exact ⟨_, rfl, regex⟩
  | xpath => exact ⟨_, rfl, any.star.seq (regex.seq any.star)⟩

theorem compile_closed {r : Regex} {d : Dialect} {limit : Nat} {p : Program}
    (ok : r.compile d limit = .ok p) : p.Closed ∧ (r.Branched → p.Forked) := by
  obtain ⟨body, same, within⟩ := layout_eq_seq_accept r d
  have code : ∀ instr ∈ body 0, instr.Within r.Branched (body 0).length := by
    simpa using within 0
  rw [compile_ok ok, same]
  exact Program.closed_of_within code

/-- No jump is given a target where there is none. -/
theorem compile_error {r : Regex} {d : Dialect} {limit : Nat} {e : AssemblyError}
    (failed : r.compile d limit = .error e) : e = .tooLarge := by
  rw [compile_eq, Assembly.extend] at failed
  split at failed
  · cases failed
  · cases failed
    rfl

end SchemaRegex

import SchemaRegex.Proofs.Pattern.Merged
import SchemaRegex.Proofs.Program.Layout

/-!
# Assembling a layout

Assembling an expression adds exactly the layout of its code, or fails because that does not fit
(`emits_regex`, `compile_eq`). The limit changes nothing else, and no jump is patched that is none.
-/

namespace SchemaRegex

namespace Assembly

def extend (limit : Nat) (program code : List Instruction) : Except AssemblyError Assembly :=
  if code = [] ∨ program.length + code.length ≤ limit then .ok ⟨(program ++ code).toArray, limit⟩
  else .error .tooLarge

theorem extend_nil (limit : Nat) (program : List Instruction) :
    extend limit program [] = .ok ⟨program.toArray, limit⟩ := by
  simp [extend]

theorem extend_ok {limit : Nat} {program code : List Instruction} {a : Assembly}
    (ok : extend limit program code = .ok a) : a = ⟨(program ++ code).toArray, limit⟩ := by
  unfold extend at ok
  split at ok <;> cases ok
  rfl

theorem extend_bind (limit : Nat) (program code more : List Instruction) :
    (extend limit program code >>= fun _ => extend limit (program ++ code) more) =
      extend limit program (code ++ more) := by
  by_cases none : more = []
  · subst none
    rw [List.append_nil, extend_nil]
    unfold extend
    split <;> simp [bind, Except.bind]
  · have some : 0 < more.length := List.length_pos_iff.mpr none
    unfold extend
    split
    · simp only [bind, Except.bind, List.append_assoc, List.length_append, none, false_or,
        List.append_eq_nil_iff, and_false]
      rw [Nat.add_assoc]
    · rename_i full
      have beyond : ¬ (code ++ more = [] ∨ program.length + (code ++ more).length ≤ limit) := by
        simp only [List.append_eq_nil_iff, none, and_false, false_or, List.length_append]
        omega
      rw [if_neg beyond]
      rfl

theorem emit_eq (limit : Nat) (program : List Instruction) (instr : Instruction) :
    emit ⟨program.toArray, limit⟩ instr = extend limit program [instr] := by
  unfold emit extend location
  simp only [List.size_toArray, List.length_singleton, List.cons_ne_self, false_or,
    List.push_toArray]
  by_cases full : limit ≤ program.length
  · rw [if_pos full, if_neg (by omega)]
  · rw [if_neg full, if_pos (by omega)]

/-- A jump that was added with some targets gets one more. -/
theorem addTarget_eq (limit target : Nat) (before behind : List Instruction) (targets : Array Nat) :
    addTarget ⟨(before ++ .jump targets :: behind).toArray, limit⟩ before.length target =
      .ok ⟨(before ++ .jump (targets.push target) :: behind).toArray, limit⟩ := by
  have found : (before ++ .jump targets :: behind).toArray[before.length]? = some (.jump targets) := by
    simp
  unfold addTarget
  rw [found]
  simp only [List.modify_toArray, Except.ok.injEq, mk.injEq, and_true]
  congr 1
  apply List.ext_getElem?
  intro i
  rw [List.getElem?_modify]
  by_cases same : before.length = i
  · subst same
    simp
  · simp only [same, if_false]
    rw [id_map']
    rcases Nat.lt_or_gt_of_ne same with later | earlier
    · rw [List.getElem?_append_right (by omega), List.getElem?_append_right (by omega),
        List.getElem?_cons, List.getElem?_cons, if_neg (by omega), if_neg (by omega)]
    · rw [List.getElem?_append_left earlier, List.getElem?_append_left earlier]

theorem extend_then {β : Type} (limit : Nat) (program code : List Instruction)
    (next : Assembly → Except AssemblyError β) :
    (extend limit program code >>= next) =
      (extend limit program code >>= fun _ => next ⟨(program ++ code).toArray, limit⟩) := by
  unfold extend
  split <;> rfl

/-- Whether code fits depends on lengths alone. -/
theorem extend_only {β : Type} (limit : Nat) {program code more : List Instruction}
    (other : List Instruction) (before : program.length = other.length) (added : code.length = more.length)
    (result : Except AssemblyError β) :
    (extend limit program code >>= fun _ => result) =
      (extend limit other more >>= fun _ => result) := by
  have fits : (code = [] ∨ program.length + code.length ≤ limit) ↔
      (more = [] ∨ other.length + more.length ≤ limit) := by
    rw [← List.length_eq_zero_iff, ← List.length_eq_zero_iff, added, before]
  unfold extend
  by_cases room : more = [] ∨ other.length + more.length ≤ limit
  · rw [if_pos room, if_pos (fits.mpr room)]
    rfl
  · rw [if_neg room, if_neg (mt fits.mp room)]

/-- A jump that was added with the code behind it gets a target. -/
theorem extend_land (limit : Nat) (program code : List Instruction) (targets : Array Nat) :
    (extend limit program (.jump targets :: code) >>= fun a => a.land program.length) =
      extend limit program (.jump (targets.push (program.length + (code.length + 1))) :: code) := by
  rw [extend_then]
  unfold land location
  simp only [addTarget_eq, List.size_toArray, List.length_append, List.length_cons]
  rw [extend_only limit program rfl (List.length_cons.trans List.length_cons.symm)]
  exact (extend_then limit program _ .ok).symm.trans (bind_pure _)

/-- The function adds the code, and fails only if it does not fit. -/
def Emits (f : Assembly → Except AssemblyError Assembly) (c : Code) : Prop :=
  ∀ limit program, f ⟨program.toArray, limit⟩ = extend limit program (c program.length)

theorem Emits.after {f : Assembly → Except AssemblyError Assembly} {c : Code} (emits : Emits f c)
    (limit : Nat) (program code : List Instruction) :
    (extend limit program code >>= f) =
      extend limit program (code ++ c (program.length + code.length)) := by
  rw [extend_then, emits, List.length_append, extend_bind]

theorem emits_emit (instr : Instruction) : Emits (·.emit instr) (.one instr) :=
  fun limit program => emit_eq limit program instr

theorem Emits.seq {f g : Assembly → Except AssemblyError Assembly} {c d : Code}
    (first : Emits f c) (second : Emits g d) : Emits (fun a => f a >>= g) (c.seq d) := by
  intro limit program
  change (f _ >>= g) = _
  rw [first, second.after]
  rfl

theorem Emits.times {f : Assembly → Except AssemblyError Assembly} {c : Code} (emits : Emits f c)
    (n : Nat) : Emits (times n f) (.repeated n c) := by
  induction n with
  | zero =>
    intro limit program
    exact (extend_nil limit program).symm
  | succ n ih => exact emits.seq ih

theorem Emits.optionally {f : Assembly → Except AssemblyError Assembly} {c : Code}
    (emits : Emits f c) : Emits (optionally f) c.optional := by
  intro limit program
  unfold Assembly.optionally
  simp only [location, List.size_toArray, emit_eq]
  rw [← bind_assoc, extend_land, ← bind_assoc, emits.after]
  simp only [List.cons_append, List.nil_append]
  rw [extend_land]
  simp [Code.optional, Nat.add_assoc, Nat.add_comm 1]

theorem Emits.loop {f : Assembly → Except AssemblyError Assembly} {c : Code} (emits : Emits f c) :
    Emits (loop f) c.star := by
  intro limit program
  unfold Assembly.loop
  simp only [location, List.size_toArray, emit_eq]
  rw [← bind_assoc, extend_land, ← bind_assoc, emits.after, ← bind_assoc, (emits_emit _).after]
  simp only [List.cons_append, List.nil_append]
  rw [extend_land]
  simp [Code.star, Code.one, Nat.add_assoc]

theorem Emits.loopOnce {f : Assembly → Except AssemblyError Assembly} {c : Code}
    (emits : Emits f c) : Emits (loopOnce f) c.plus := by
  intro limit program
  unfold Assembly.loopOnce
  simp only [location, List.size_toArray]
  rw [emits, extend_then]
  simp only [List.size_toArray, emit_eq]
  simp only [extend_land, extend_bind]
  simp [Code.plus, Nat.add_assoc]

theorem Emits.quantified {f : Assembly → Except AssemblyError Assembly} {c : Code}
    (emits : Emits f c) (q : Quantifier) : Emits (quantified q f) (.quantified q c) := by
  obtain ⟨min, max⟩ := q
  cases max with
  | some max => exact (emits.times _).seq (emits.optionally.times _)
  | none =>
    cases min with
    | zero => exact emits.loop
    | succ n => exact (emits.times n).seq emits.loopOnce

theorem landAll_exits (limit total : Nat) (cs : List Code) (before behind : List Instruction)
    (size : (before ++ Code.joined #[] cs before.length ++ behind).length = total) :
    landAll (Code.exits cs before.length)
        ⟨(before ++ Code.joined #[] cs before.length ++ behind).toArray, limit⟩ =
      .ok ⟨(before ++ Code.joined #[total] cs before.length ++ behind).toArray, limit⟩ := by
  induction cs generalizing before with
  | nil => rfl
  | cons c cs ih =>
    have place : before.length + (c before.length).length = (before ++ c before.length).length := by
      rw [List.length_append]
    have step := ih (before ++ c before.length ++ [.jump #[total]]) (by
      rw [← size]
      simp [Code.joined, Code.seq, Code.one, Nat.add_assoc])
    unfold Code.exits landAll land location
    rw [List.size_toArray, size, place]
    simp only [Code.joined, Code.seq, Code.one, List.append_assoc, List.cons_append]
    rw [← List.append_assoc, addTarget_eq]
    change landAll _ _ = _
    simpa [Nat.add_assoc, Code.joined, Code.seq, Code.one] using step

theorem extend_bind_then {β : Type} (limit : Nat) (program code more : List Instruction)
    (next : Assembly → Except AssemblyError β) :
    (extend limit program code >>= fun _ => extend limit (program ++ code) more >>= next) =
      (extend limit program (code ++ more) >>= next) := by
  rw [← extend_bind, bind_assoc]

theorem addBranches_step {b : Branch} {c : Code} (emits : Emits (addBranch b) c) (limit l : Nat)
    (program behind : List Instruction) (targets : Array Nat) (exits : List Nat) (bs : List Branch)
    (place : program.length + (behind.length + 1) = l) :
    addBranches program.length exits (b :: bs)
        ⟨(program ++ .jump targets :: behind).toArray, limit⟩ =
      (extend limit (program ++ .jump targets :: behind) (c l ++ [.jump #[]]) >>= fun _ =>
        addBranches program.length ((l + (c l).length) :: exits) bs
          ⟨(program ++ Instruction.jump (targets.push l) ::
            (behind ++ (c l ++ [Instruction.jump #[]]))).toArray, limit⟩) := by
  have size : (program ++ .jump (targets.push l) :: behind).length = l := by
    rw [← place]
    simp
  have landed : land ⟨(program ++ .jump targets :: behind).toArray, limit⟩ program.length =
      .ok ⟨(program ++ .jump (targets.push l) :: behind).toArray, limit⟩ := by
    simp only [land, location, List.size_toArray, List.length_append, List.length_cons, place,
      addTarget_eq]
  conv_lhs => unfold addBranches
  rw [landed]
  change (addBranch b _ >>= fun a => a.emit (.jump #[]) >>=
    addBranches program.length (a.program.size :: exits) bs) = _
  rw [emits, size, extend_then]
  simp only [emit_eq, List.size_toArray, List.length_append]
  rw [extend_bind_then, extend_then,
    extend_only limit (program ++ .jump targets :: behind) (by simp) rfl]
  simp only [List.append_assoc, List.cons_append, List.length_cons, place]

mutual

private theorem emits_atom : (x : Atom) → Emits (addAtom x) x.merged.code
  | .literal c => emits_emit (.literal c)
  | .set s => emits_emit (.set s)
  | .group r => emits_regex r

private theorem emits_piece : (p : Piece) → Emits (addPiece p) p.merged.code
  | ⟨atom, quantifier⟩ => (emits_atom atom).quantified quantifier

private theorem emits_pieces (previous : Option Nat) :
    (ps : List Piece) → Emits (addPieces previous ps) (piecesCode (mergedPieces previous ps))
  | [] => fun limit program => (extend_nil limit program).symm
  | p :: ps => by
    intro limit program
    unfold addPieces mergedPieces
    split
    · exact emits_pieces p.anchor? ps limit program
    · exact (emits_piece p).seq (emits_pieces p.anchor? ps) limit program

private theorem emits_branch : (b : Branch) → Emits (addBranch b) b.merged.code
  | ⟨pieces⟩ => emits_pieces none pieces

/-- The jump in front gets a target for each branch, and the jumps behind the branches are noted. -/
private theorem emits_branches (limit l : Nat) (program behind : List Instruction) (targets : Array Nat)
    (exits : List Nat) (place : program.length + (behind.length + 1) = l) :
    (bs : List Branch) →
      addBranches program.length exits bs ⟨(program ++ .jump targets :: behind).toArray, limit⟩ =
        (extend limit (program ++ .jump targets :: behind)
            (Code.joined #[] (branchCodes (mergedBranches bs)) l) >>= fun _ =>
          .ok (exits.reverse ++ Code.exits (branchCodes (mergedBranches bs)) l,
            ⟨(program ++
              .jump (targets ++ (Code.starts (branchCodes (mergedBranches bs)) l).toArray) ::
              (behind ++ Code.joined #[] (branchCodes (mergedBranches bs)) l)).toArray, limit⟩))
  | [] => by
    rw [mergedBranches, branchCodes, Code.joined, extend_nil]
    simp [addBranches, Code.exits, Code.starts, bind, Except.bind]
  | b :: bs => by
    have size : program.length + ((behind ++ (b.merged.code l ++ [Instruction.jump #[]])).length + 1)
        = l + (b.merged.code l).length + 1 := by
      simp only [List.length_append, List.length_singleton]
      omega
    have shape : program ++ .jump (targets.push l) :: (behind ++ (b.merged.code l ++ [.jump #[]])) =
        (program ++ .jump (targets.push l) :: behind) ++ (b.merged.code l ++ [.jump #[]]) := by simp
    rw [addBranches_step (emits_branch b) limit l program behind targets exits bs place,
      emits_branches limit _ program _ _ _ size bs,
      extend_only limit (program ++ .jump (targets.push l) :: behind) (by simp) rfl, shape,
      extend_bind_then, extend_only limit (program ++ .jump targets :: behind) (by simp) rfl]
    simp [mergedBranches, branchCodes, Code.joined, Code.exits, Code.starts, Code.seq, Code.one]

theorem emits_regex : (r : Regex) → Emits (addRegex r) r.merged.code
  | ⟨branches⟩ => by
    intro limit program
    have joins := emits_branches limit (program.length + 1) program [] #[] [] rfl branches
    change addRegex ⟨branches⟩ _ =
      extend limit program (Code.choice (branchCodes (mergedBranches branches)) program.length)
    generalize branchCodes (mergedBranches branches) = cs at joins ⊢
    have place : (program ++ [Instruction.jump (Code.starts cs (program.length + 1)).toArray]).length =
        program.length + 1 := List.length_append
    have lands := landAll_exits limit (program.length + 1 + (Code.joined #[] cs (program.length + 1)).length)
      cs (program ++ [.jump (Code.starts cs (program.length + 1)).toArray]) []
    have same : ([Instruction.jump #[]] ++ Code.joined #[] cs (program.length + 1)).length =
        (Code.choice cs program.length).length := congrArg (· + 1) (Code.length_joined _ _ cs _)
    rw [place] at lands
    simp only [List.append_nil, List.append_assoc, List.singleton_append] at lands
    unfold addRegex
    simp only [location, List.size_toArray, emit_eq]
    rw [extend_then, joins, bind_assoc]
    change (extend limit program [.jump #[]] >>= fun _ => extend limit (program ++ [.jump #[]])
      (Code.joined #[] cs (program.length + 1)) >>= fun _ =>
        landAll (Code.exits cs (program.length + 1)) _) = _
    simp only [Array.empty_append, List.nil_append]
    rw [lands (by simp [Nat.add_assoc, Nat.add_comm 1]), extend_bind_then,
      extend_only limit program rfl same]
    exact (extend_then limit program _ .ok).symm.trans (bind_pure _)

end

end Assembly

def Regex.layout (r : Regex) : Dialect → Code
  | .xsd => r.merged.code.seq (.one .accept)
  | .xpath => ((Code.star (.one .any)).seq (r.merged.code.seq (.star (.one .any)))).seq (.one .accept)

/-- Compiling gives the layout, or fails because that does not fit. -/
theorem compile_eq (r : Regex) (d : Dialect) (limit : Nat) :
    r.compile d limit = Assembly.program <$> Assembly.extend limit [] (r.layout d 0) := by
  have accept := Assembly.emits_emit .accept
  cases d with
  | xsd =>
    have emits := (Assembly.emits_regex r).seq accept limit []
    change _ = Assembly.program <$> Assembly.extend limit [] (r.layout .xsd ([] : List Instruction).length)
    rw [Regex.layout, ← emits, map_bind]
    rfl
  | xpath =>
    have loop := (Assembly.emits_emit .any).loop
    have emits := (loop.seq ((Assembly.emits_regex r).seq loop)).seq accept limit []
    change _ = Assembly.program <$> Assembly.extend limit [] (r.layout .xpath ([] : List Instruction).length)
    rw [Regex.layout, ← emits, map_bind]
    simp only [bind_assoc]
    rfl

theorem compile_ok {r : Regex} {d : Dialect} {limit : Nat} {p : Program}
    (ok : r.compile d limit = .ok p) : p = (r.layout d 0).toArray := by
  rw [compile_eq] at ok
  cases fits : Assembly.extend limit [] (r.layout d 0) with
  | error e =>
    rw [fits] at ok
    cases ok
  | ok a =>
    rw [fits] at ok
    cases ok
    rw [Assembly.extend_ok fits]
    rfl

theorem compile_of_fits (r : Regex) (d : Dialect) {limit : Nat}
    (fits : (r.layout d 0).length ≤ limit) : r.compile d limit = .ok (r.layout d 0).toArray := by
  have room : r.layout d 0 = [] ∨ ([] : List Instruction).length + (r.layout d 0).length ≤ limit :=
    .inr ((Nat.zero_add _).symm ▸ fits)
  rw [compile_eq, Assembly.extend, if_pos room]
  rfl

end SchemaRegex

import SchemaRegex.Proofs.Machine.Acceptance
import SchemaRegex.Proofs.Program.Emission
import SchemaRegex.Proofs.Program.Recognition

/-!
# The words that a compiled expression matches

Paths from the start of the program to its `accept` take the words of the expression, and the machine
finds a match exactly if there is such a path. In an XPath program any word may come before and after.
-/

namespace SchemaRegex

open Program Code

/-- The machine matches what the code in front of `accept` recognizes. -/
theorem accepts_layout_iff {c : Code} {L : Language Nat} (recognizes : Recognizes c L)
    {p : Program} (layout : p = (c.seq (.one .accept) 0).toArray) (w : List Nat) :
    ((Machine.ofSize p.size).accepts p w).1 = true ↔ w ∈ L := by
  have has : p.Has 0 (c 0 ++ [.accept]) := by
    rw [layout]
    exact has_toArray _
  obtain ⟨body, behind⟩ := has_append.mp has
  rw [Machine.accepts_iff w (Machine.ready_ofSize p)]
  constructor
  · intro given
    obtain ⟨b, ⟨n, path⟩, accept⟩ := given
    have outside : 0 + (c 0).length ≤ b := by
      by_contra within
      have place : (c 0)[b]? = some (c 0)[b] := List.getElem?_eq_getElem (by omega)
      have found := body b _ place
      rw [Nat.zero_add, accept, Option.some.injEq] at found
      exact recognizes.inner 0 (found ▸ List.getElem_mem _)
    obtain ⟨k, _, u, v, same, inside, rest⟩ := recognizes.cut p 0 n w b body path (.inr outside)
    have done := rest.stops (has_cons.mp behind).1
    rw [same, done, List.append_nil]
    exact inside
  · intro inside
    exact ⟨_, recognizes.leads p 0 w body inside, (has_cons.mp behind).1⟩

private theorem kstar_eq_top {L : Language Nat} (letters : ∀ c, [c] ∈ L) : KStar.kstar L = ⊤ := by
  refine eq_top_iff.mpr fun w _ => Language.mem_kstar.mpr ⟨w.map ([·]), ?_, fun u member => ?_⟩
  · rw [← List.flatMap_def]
    exact w.flatMap_singleton'.symm
  · obtain ⟨c, _, same⟩ := List.mem_map.mp member
    rw [← same]
    exact letters c

/-- Any word may come before and after the expression of an XPath program. -/
theorem recognizes_anything : Recognizes (.star (.one .any)) ⊤ := by
  rw [← kstar_eq_top (L := {w | ∃ c, Instruction.any.takes c = true ∧ w = [c]}) fun c => ⟨c, rfl, rfl⟩]
  exact (recognizes_one .any rfl Instruction.noConfusion).star

/-- The program of a schema pattern matches the words of its expression. -/
theorem accepts_schema_iff {r : Regex} {limit : Nat} {p : Program} (ordered : r.Ordered)
    (fits : r.compile .xsd limit = .ok p) (w : List Nat) :
    ((Machine.ofSize p.size).accepts p w).1 = true ↔ w ∈ r.merged.language :=
  accepts_layout_iff (recognizes_regex _ (Regex.Ordered.merged r ordered)) (compile_ok fits) w

/-- The program of an XPath pattern matches what has a word of its expression inside. -/
theorem accepts_xpath_iff {r : Regex} {limit : Nat} {p : Program} (ordered : r.Ordered)
    (fits : r.compile .xpath limit = .ok p) (w : List Nat) :
    ((Machine.ofSize p.size).accepts p w).1 = true ↔
      ∃ before u after, w = before ++ u ++ after ∧ u ∈ r.merged.language := by
  have recognizes := recognizes_anything.seq
    ((recognizes_regex _ (Regex.Ordered.merged r ordered)).seq recognizes_anything)
  rw [accepts_layout_iff recognizes (compile_ok fits) w]
  constructor
  · intro inside
    obtain ⟨before, _, rest, inside, same⟩ := Language.mem_mul.mp inside
    obtain ⟨u, inside, after, _, more⟩ := Language.mem_mul.mp inside
    exact ⟨before, u, after, by rw [← same, ← more, List.append_assoc], inside⟩
  · intro given
    obtain ⟨before, u, after, same, inside⟩ := given
    rw [same, List.append_assoc]
    exact Language.append_mem_mul trivial (Language.append_mem_mul inside trivial)

/-- Without marks of the ends, the program of a schema pattern matches exactly the words that the
expression says. -/
theorem schema_program_accepts_iff {r : Regex} {limit : Nat} {p : Program} (free : r.MarkFree)
    (ordered : r.Ordered) (fits : r.compile .xsd limit = .ok p) (w : List Nat) :
    ((Machine.ofSize p.size).accepts p w).1 = true ↔ w ∈ r.language := by
  rw [accepts_schema_iff ordered fits, r.merged_eq free]

theorem schema_program_accepts_nested_loops :
    let r : Regex := ⟨[⟨[⟨.group ⟨[⟨[⟨.literal 97, ⟨0, none⟩⟩]⟩]⟩, ⟨1, none⟩⟩]⟩]⟩
    r.MarkFree ∧ r.Ordered ∧ ∃ p, r.compile .xsd 16 = .ok p ∧
      (((Machine.ofSize p.size).accepts p [97, 97]).1 = true ↔ [97, 97] ∈ r.language) := by
  intro r
  have free : r.MarkFree := by
    simp [r, Regex.MarkFree, Regex.Every, BranchesEvery, Branch.Every, PiecesEvery, Piece.Every,
      Atom.Every, Piece.NoMark, startMark, endMark, lastCodepoint]
  have ordered : r.Ordered := by
    simp [r, Regex.Ordered, Regex.Every, BranchesEvery, Branch.Every, PiecesEvery, Piece.Every,
      Atom.Every, Quantifier.Ordered]
  have fits : r.compile .xsd 16 = .ok _ := compile_of_fits r .xsd (by decide)
  exact ⟨free, ordered, _, fits, schema_program_accepts_iff free ordered fits [97, 97]⟩

end SchemaRegex

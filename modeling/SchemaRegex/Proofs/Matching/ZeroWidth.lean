import SchemaRegex.Proofs.Pattern.Merged

/-!
# Anchors that take no codepoint

An expression spans a part of the subject from one position to another, where an anchor goes from an
end of the subject to itself. It does so along one of its words (`Regex.spans_iff`), and leaving out
repeated anchors makes no difference to it (`Regex.spans_merged`).
-/

namespace SchemaRegex

variable {s : List Nat}

/-- A literal leads from one position of the subject to another. A codepoint has to stand between
them; the mark of an end leads from that end to itself. -/
def Step (s : List Nat) (c i j : Nat) : Prop :=
  if c = startMark then i = 0 ∧ j = 0
  else if c = endMark then i = s.length ∧ j = s.length
  else s[i]? = some c ∧ j = i + 1

def Times (R : Nat → Nat → Prop) : Nat → Nat → Nat → Prop
  | 0, i, j => i = j
  | k + 1, i, j => ∃ m, R i m ∧ Times R k m j

mutual

def Atom.Spans (s : List Nat) : Atom → Nat → Nat → Prop
  | .literal c, i, j => Step s c i j
  | .set set, i, j => ∃ c ∈ set, s[i]? = some c ∧ j = i + 1
  | .group r, i, j => r.Spans s i j

def Piece.Spans (s : List Nat) : Piece → Nat → Nat → Prop
  | ⟨atom, quantifier⟩, i, j => ∃ k, quantifier.Allows k ∧ Times (atom.Spans s) k i j

def piecesSpan (s : List Nat) : List Piece → Nat → Nat → Prop
  | [], i, j => i = j
  | p :: ps, i, j => ∃ m, p.Spans s i m ∧ piecesSpan s ps m j

def Branch.Spans (s : List Nat) : Branch → Nat → Nat → Prop
  | ⟨pieces⟩, i, j => piecesSpan s pieces i j

def branchesSpan (s : List Nat) : List Branch → Nat → Nat → Prop
  | [], _, _ => False
  | b :: bs, i, j => b.Spans s i j ∨ branchesSpan s bs i j

def Regex.Spans (s : List Nat) : Regex → Nat → Nat → Prop
  | ⟨branches⟩, i, j => branchesSpan s branches i j

end

def Walks (s : List Nat) : List Nat → Nat → Nat → Prop
  | [], i, j => i = j
  | c :: u, i, j => ∃ m, Step s c i m ∧ Walks s u m j

theorem walks_append {u v : List Nat} {i j : Nat} :
    Walks s (u ++ v) i j ↔ ∃ m, Walks s u i m ∧ Walks s v m j := by
  induction u generalizing i with
  | nil => simp [Walks]
  | cons c u ih =>
    simp only [List.cons_append, Walks, ih]
    constructor
    · intro given
      obtain ⟨k, step, m, front, back⟩ := given
      exact ⟨m, ⟨k, step, front⟩, back⟩
    · intro given
      obtain ⟨m, ⟨k, step, front⟩, back⟩ := given
      exact ⟨k, step, m, front, back⟩

theorem walks_singleton {c i j : Nat} : Walks s [c] i j ↔ Step s c i j := by
  simp [Walks]

theorem walks_mul {L M : Language Nat} {i j : Nat} :
    (∃ u ∈ L * M, Walks s u i j) ↔
      ∃ m, (∃ u ∈ L, Walks s u i m) ∧ ∃ u ∈ M, Walks s u m j := by
  constructor
  · intro given
    obtain ⟨w, inside, walks⟩ := given
    obtain ⟨u, first, v, second, same⟩ := Language.mem_mul.mp inside
    rw [← same] at walks
    obtain ⟨m, front, back⟩ := walks_append.mp walks
    exact ⟨m, ⟨u, first, front⟩, v, second, back⟩
  · intro given
    obtain ⟨m, ⟨u, first, front⟩, v, second, back⟩ := given
    exact ⟨u ++ v, Language.append_mem_mul first second, walks_append.mpr ⟨m, front, back⟩⟩

theorem walks_one {i j : Nat} : (∃ u ∈ (1 : Language Nat), Walks s u i j) ↔ i = j := by
  simp [Language.mem_one, Walks]

theorem times_iff {L : Language Nat} {R : Nat → Nat → Prop}
    (same : ∀ i j, R i j ↔ ∃ u ∈ L, Walks s u i j) (k i j : Nat) :
    Times R k i j ↔ ∃ u ∈ L ^ k, Walks s u i j := by
  induction k generalizing i with
  | zero => rw [Times, pow_zero, walks_one]
  | succ k ih => simp only [Times, pow_succ', walks_mul, same, ih]

theorem step_of_codepoint {c i j : Nat} (within : c ≤ lastCodepoint) :
    Step s c i j ↔ s[i]? = some c ∧ j = i + 1 := by
  have notStart : c ≠ startMark := by
    simp only [startMark]
    omega
  have notEnd : c ≠ endMark := by
    simp only [endMark]
    omega
  rw [Step, if_neg notStart, if_neg notEnd]

mutual

private theorem Atom.spans_iff : (x : Atom) → (i j : Nat) →
    (x.Spans s i j ↔ ∃ u ∈ x.language, Walks s u i j)
  | .literal c, i, j => by
    rw [Atom.Spans, Atom.language]
    constructor
    · intro step
      exact ⟨[c], rfl, walks_singleton.mpr step⟩
    · intro given
      obtain ⟨u, same, walks⟩ := given
      cases same
      exact walks_singleton.mp walks
  | .set set, i, j => by
    rw [Atom.Spans, Atom.language]
    constructor
    · intro given
      obtain ⟨c, member, step⟩ := given
      have within := CodepointSet.le_lastCodepoint_of_mem member
      exact ⟨[c], ⟨c, member, rfl⟩, walks_singleton.mpr ((step_of_codepoint within).mpr step)⟩
    · intro given
      obtain ⟨u, ⟨c, member, same⟩, walks⟩ := given
      rw [same, walks_singleton] at walks
      have within := CodepointSet.le_lastCodepoint_of_mem member
      exact ⟨c, member, (step_of_codepoint within).mp walks⟩
  | .group r, i, j => Regex.spans_iff r i j

private theorem Piece.spans_iff : (p : Piece) → (i j : Nat) →
    (p.Spans s i j ↔ ∃ u ∈ p.language, Walks s u i j)
  | ⟨atom, quantifier⟩, i, j => by
    simp only [Piece.Spans, Piece.language, times_iff (Atom.spans_iff atom)]
    constructor
    · intro given
      obtain ⟨k, allowed, u, inside, walks⟩ := given
      exact ⟨u, ⟨k, allowed, inside⟩, walks⟩
    · intro given
      obtain ⟨u, ⟨k, allowed, inside⟩, walks⟩ := given
      exact ⟨k, allowed, u, inside, walks⟩

private theorem piecesSpan_iff : (ps : List Piece) → (i j : Nat) →
    (piecesSpan s ps i j ↔ ∃ u ∈ piecesLanguage ps, Walks s u i j)
  | [], i, j => walks_one.symm
  | p :: ps, i, j => by
    simp only [piecesSpan, piecesLanguage, walks_mul, Piece.spans_iff p, piecesSpan_iff ps]

private theorem Branch.spans_iff : (b : Branch) → (i j : Nat) →
    (b.Spans s i j ↔ ∃ u ∈ b.language, Walks s u i j)
  | ⟨pieces⟩, i, j => piecesSpan_iff pieces i j

private theorem branchesSpan_iff : (bs : List Branch) → (i j : Nat) →
    (branchesSpan s bs i j ↔ ∃ u ∈ branchesLanguage bs, Walks s u i j)
  | [], i, j => by simp [branchesSpan, branchesLanguage, Language.notMem_zero]
  | b :: bs, i, j => by
    simp only [branchesSpan, branchesLanguage, Branch.spans_iff b, branchesSpan_iff bs,
      Language.mem_add, or_and_right, exists_or]

/-- A part of the subject is matched along a word of the expression. -/
theorem Regex.spans_iff : (r : Regex) → (i j : Nat) →
    (r.Spans s i j ↔ ∃ u ∈ r.language, Walks s u i j)
  | ⟨branches⟩, i, j => branchesSpan_iff branches i j

end

theorem spans_anchor {p : Piece} {c i j : Nat} (anchor : p.anchor? = some c) :
    p.Spans s i j ↔ Step s c i j := by
  rw [(Piece.eq_of_anchor anchor).1, Piece.Spans]
  constructor
  · intro given
    obtain ⟨k, ⟨least, most⟩, times⟩ := given
    have one : k = 1 := Nat.le_antisymm (most 1 rfl) least
    subst one
    obtain ⟨m, step, same⟩ := times
    exact same ▸ step
  · intro step
    exact ⟨1, ⟨Nat.le_refl 1, fun max same => by cases same; exact Nat.le_refl 1⟩, j, step, rfl⟩

theorem step_anchor {c i j : Nat} (mark : c = startMark ∨ c = endMark) (step : Step s c i j) :
    j = i := by
  unfold Step at step
  split at step
  · rw [step.1, step.2]
  split at step
  · rw [step.1, step.2]
  · rename_i notStart notEnd
    exact absurd mark (not_or.mpr ⟨notStart, notEnd⟩)

mutual

private theorem Atom.spans_merged : (x : Atom) → (i j : Nat) → (x.merged.Spans s i j ↔ x.Spans s i j)
  | .literal _, _, _ => Iff.rfl
  | .set _, _, _ => Iff.rfl
  | .group r, i, j => Regex.spans_merged r i j

private theorem Piece.spans_merged : (p : Piece) → (i j : Nat) → (p.merged.Spans s i j ↔ p.Spans s i j)
  | ⟨atom, quantifier⟩, i, j => by
    have same : atom.merged.Spans s = atom.Spans s :=
      funext fun i => funext fun j => propext (Atom.spans_merged atom i j)
    rw [Piece.merged, Piece.Spans, Piece.Spans, same]

/-- An anchor that was met before the pieces is met again at the same place. -/
private theorem piecesSpan_merged (previous : Option Nat) : (ps : List Piece) → (i j : Nat) →
    (∀ c ∈ previous, Step s c i i) →
    (piecesSpan s (mergedPieces previous ps) i j ↔ piecesSpan s ps i j)
  | [], _, _, _ => Iff.rfl
  | p :: ps, i, j, met => by
    have behind (m : Nat) (spans : p.Spans s i m) : ∀ c ∈ p.anchor?, Step s c m m := by
      intro c anchor
      have step := (spans_anchor anchor).mp spans
      have same := step_anchor (Piece.eq_of_anchor anchor).2 step
      rw [same] at step
      exact same.symm ▸ step
    rw [mergedPieces, piecesSpan]
    split
    · rename_i repeated
      obtain ⟨c, anchor⟩ := Option.isSome_iff_exists.mp repeated.1
      have step := met c (repeated.2 ▸ anchor)
      have spans : p.Spans s i i := (spans_anchor anchor).mpr step
      rw [piecesSpan_merged p.anchor? ps i j (behind i spans)]
      constructor
      · exact fun others => ⟨i, spans, others⟩
      · intro given
        obtain ⟨m, first, others⟩ := given
        have same := step_anchor (Piece.eq_of_anchor anchor).2 ((spans_anchor anchor).mp first)
        exact same ▸ others
    · rw [piecesSpan]
      refine exists_congr fun m => ?_
      rw [Piece.spans_merged p i m]
      exact and_congr_right fun spans => piecesSpan_merged p.anchor? ps m j (behind m spans)

private theorem Branch.spans_merged : (b : Branch) → (i j : Nat) → (b.merged.Spans s i j ↔ b.Spans s i j)
  | ⟨pieces⟩, i, j => piecesSpan_merged none pieces i j fun _ none => by cases none

private theorem branchesSpan_merged : (bs : List Branch) → (i j : Nat) →
    (branchesSpan s (mergedBranches bs) i j ↔ branchesSpan s bs i j)
  | [], _, _ => Iff.rfl
  | b :: bs, i, j => or_congr (Branch.spans_merged b i j) (branchesSpan_merged bs i j)

/-- Repeated anchors make no difference to what is matched. -/
theorem Regex.spans_merged : (r : Regex) → (i j : Nat) → (r.merged.Spans s i j ↔ r.Spans s i j)
  | ⟨branches⟩, i, j => branchesSpan_merged branches i j

end

end SchemaRegex

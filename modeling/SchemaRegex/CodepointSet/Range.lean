import SchemaRegex.Codepoint

/-!
# Lists of codepoint ranges

The working form of a set of codepoints: ranges with both ends included. A list is canonical when
its ranges are nonempty, lie in the codespace, ascend, and leave a gap between neighbours.

Main statements: `arrange`, `subtract` and `gaps` have exactly the members of the union, the
difference and the complement, each gives a canonical list, and a canonical list is determined by
its members (`eq_of_canonical`).
-/

namespace SchemaRegex

/-- The codepoints from `lo` to `hi`, both included; empty when `hi < lo`. -/
structure Range where
  lo : Nat
  hi : Nat
deriving DecidableEq, Repr

namespace Range

instance : Membership Nat Range where
  mem r c := r.lo ≤ c ∧ c ≤ r.hi

instance (c : Nat) (r : Range) : Decidable (c ∈ r) :=
  inferInstanceAs (Decidable (r.lo ≤ c ∧ c ≤ r.hi))

theorem mem_iff {c : Nat} {r : Range} : c ∈ r ↔ r.lo ≤ c ∧ c ≤ r.hi := Iff.rfl

def Before (r s : Range) : Prop := r.hi + 1 < s.lo

instance (r s : Range) : Decidable (r.Before s) :=
  inferInstanceAs (Decidable (r.hi + 1 < s.lo))

def Valid (r : Range) : Prop := r.lo ≤ r.hi ∧ r.hi ≤ lastCodepoint

instance (r : Range) : Decidable r.Valid :=
  inferInstanceAs (Decidable (r.lo ≤ r.hi ∧ r.hi ≤ lastCodepoint))

def clip? (r : Range) : Option Range :=
  if r.lo ≤ r.hi ∧ r.lo ≤ lastCodepoint then some ⟨r.lo, min r.hi lastCodepoint⟩ else none

theorem valid_of_clip? {r s : Range} (clipped : r.clip? = some s) : s.Valid := by
  simp only [clip?, Option.ite_none_right_eq_some, Option.some.injEq] at clipped
  obtain ⟨⟨_, _⟩, rfl⟩ := clipped
  exact ⟨by simp only; omega, by simp only; omega⟩

end Range

namespace Ranges

def Covers (rs : List Range) (c : Nat) : Prop := ∃ r ∈ rs, c ∈ r

structure Canonical (rs : List Range) : Prop where
  valid : ∀ r ∈ rs, r.Valid
  ordered : rs.Pairwise Range.Before

@[simp] theorem not_covers_nil (c : Nat) : ¬ Covers [] c := by simp [Covers]

@[simp] theorem covers_cons {r : Range} {rs : List Range} {c : Nat} :
    Covers (r :: rs) c ↔ c ∈ r ∨ Covers rs c := by simp [Covers]

@[simp] theorem covers_append {rs ss : List Range} {c : Nat} :
    Covers (rs ++ ss) c ↔ Covers rs c ∨ Covers ss c := by
  simp only [Covers, List.mem_append]
  constructor
  · rintro ⟨r, h | h, m⟩
    · exact .inl ⟨r, h, m⟩
    · exact .inr ⟨r, h, m⟩
  · rintro (⟨r, h, m⟩ | ⟨r, h, m⟩)
    · exact ⟨r, .inl h, m⟩
    · exact ⟨r, .inr h, m⟩

theorem valid_of_mem_clipped {rs : List Range} {r : Range} (member : r ∈ rs.filterMap Range.clip?) :
    r.Valid := by
  obtain ⟨_, _, clipped⟩ := List.mem_filterMap.1 member
  exact Range.valid_of_clip? clipped

theorem canonical_nil : Canonical [] := ⟨by simp, .nil⟩

theorem canonical_cons {r : Range} {rs : List Range} :
    Canonical (r :: rs) ↔ r.Valid ∧ (∀ s ∈ rs, r.Before s) ∧ Canonical rs := by
  constructor
  · rintro ⟨valid, ordered⟩
    obtain ⟨before, ordered⟩ := List.pairwise_cons.1 ordered
    exact ⟨valid r (by simp), before, fun s m => valid s (by simp [m]), ordered⟩
  · rintro ⟨valid, before, canonical⟩
    exact ⟨by simpa [valid] using canonical.valid, List.pairwise_cons.2 ⟨before, canonical.ordered⟩⟩

theorem canonical_singleton {r : Range} (valid : r.Valid) : Canonical [r] :=
  canonical_cons.2 ⟨valid, by simp, canonical_nil⟩

theorem not_covers_of_before {r : Range} {rs : List Range} {c : Nat}
    (before : ∀ s ∈ rs, r.Before s) (low : c ≤ r.hi + 1) : ¬ Covers rs c := by
  rintro ⟨s, m, h⟩
  have := before s m
  simp only [Range.Before, Range.mem_iff] at this h
  omega

theorem le_lastCodepoint_of_covers {rs : List Range} {c : Nat} (canonical : Canonical rs)
    (covered : Covers rs c) : c ≤ lastCodepoint := by
  obtain ⟨r, m, h⟩ := covered
  have := canonical.valid r m
  simp only [Range.Valid, Range.mem_iff] at this h
  omega

theorem eq_of_canonical {rs ss : List Range} (hr : Canonical rs) (hs : Canonical ss)
    (same : ∀ c, Covers rs c ↔ Covers ss c) : rs = ss := by
  induction rs generalizing ss with
  | nil =>
    cases ss with
    | nil => rfl
    | cons s ss =>
      have := (same s.lo).2 (covers_cons.2 (.inl ⟨Nat.le_refl _, (hs.valid s (by simp)).1⟩))
      simp at this
  | cons r rs ih =>
    cases ss with
    | nil =>
      have := (same r.lo).1 (covers_cons.2 (.inl ⟨Nat.le_refl _, (hr.valid r (by simp)).1⟩))
      simp at this
    | cons s ss =>
      obtain ⟨rv, rb, tail_r⟩ := canonical_cons.1 hr
      obtain ⟨sv, sb, tail_s⟩ := canonical_cons.1 hs
      have lowest {x y : Range} {xs ys : List Range} (xv : x.Valid) (yv : y.Valid)
          (yb : ∀ z ∈ ys, y.Before z) (sub : ∀ c, Covers (x :: xs) c → Covers (y :: ys) c) :
          y.lo ≤ x.lo := by
        by_cases low : x.lo < y.lo
        · rcases covers_cons.1 (sub x.lo (covers_cons.2 (.inl ⟨Nat.le_refl _, xv.1⟩))) with h | h
          · exact h.1
          · exact absurd h (not_covers_of_before yb (by have := yv.1; omega))
        · omega
      have lo : r.lo = s.lo := Nat.le_antisymm
        (lowest sv rv rb fun c => (same c).2) (lowest rv sv sb fun c => (same c).1)
      have longest {x y : Range} {xs ys : List Range} (xv : x.Valid) (yv : y.Valid)
          (start : x.lo = y.lo) (yb : ∀ z ∈ ys, y.Before z)
          (sub : ∀ c, Covers (x :: xs) c → Covers (y :: ys) c) : x.hi ≤ y.hi := by
        by_cases short : y.hi < x.hi
        · have inside : y.hi + 1 ∈ x := ⟨by have := yv.1; omega, by omega⟩
          rcases covers_cons.1 (sub (y.hi + 1) (covers_cons.2 (.inl inside))) with h | h
          · have := h.2; omega
          · exact absurd h (not_covers_of_before yb (Nat.le_refl _))
        · omega
      have hi : r.hi = s.hi := Nat.le_antisymm
        (longest rv sv lo sb fun c => (same c).1) (longest sv rv lo.symm rb fun c => (same c).2)
      obtain rfl : r = s := by cases r; cases s; simp_all
      refine congrArg _ (ih tail_r tail_s fun c => ?_)
      have h := same c
      simp only [covers_cons] at h
      constructor
      · intro covered
        rcases h.1 (.inr covered) with inside | rest
        · exact absurd covered (not_covers_of_before rb (by have := inside.2; omega))
        · exact rest
      · intro covered
        rcases h.2 (.inr covered) with inside | rest
        · exact absurd covered (not_covers_of_before sb (by have := inside.2; omega))
        · exact rest

def absorb (done : List Range) (r : Range) : List Range :=
  match done with
  | [] => [r]
  | last :: done =>
    if r.lo ≤ last.hi + 1 then ⟨last.lo, max last.hi r.hi⟩ :: done else r :: last :: done

def inOrder : List Range → Bool
  | r :: s :: rs => decide (r.Before s) && inOrder (s :: rs)
  | _ => true

/-- The canonical list of the codepoints in some valid ranges, which may overlap and come in any
order. A list that is in order already is left alone. -/
def arrange (rs : List Range) : List Range :=
  if inOrder rs then rs
  else ((rs.mergeSort fun r s => r.lo ≤ s.lo).foldl absorb []).reverse

theorem canonical_of_inOrder {rs : List Range} (valid : ∀ r ∈ rs, r.Valid)
    (ordered : inOrder rs = true) : Canonical rs := by
  induction rs with
  | nil => exact canonical_nil
  | cons r rs ih =>
    cases rs with
    | nil => exact canonical_singleton (valid r (by simp))
    | cons s rs =>
      simp only [inOrder, Bool.and_eq_true, decide_eq_true_eq] at ordered
      have rest := ih (fun x m => valid x (by simp [m])) ordered.2
      refine canonical_cons.2 ⟨valid r (by simp), ?_, rest⟩
      obtain ⟨sv, sb, _⟩ := canonical_cons.1 rest
      intro x m
      rcases List.mem_cons.1 m with rfl | m
      · exact ordered.1
      · have := sb x m
        have := ordered.1
        have := sv.1
        simp only [Range.Before] at *
        omega

theorem covers_absorb {done : List Range} {r : Range} {c : Nat}
    (later : ∀ s ∈ done, s.Valid ∧ s.lo ≤ r.lo) :
    Covers (absorb done r) c ↔ Covers done c ∨ c ∈ r := by
  cases done with
  | nil => simp [absorb]
  | cons last done =>
    have := later last (by simp)
    simp only [absorb]
    split
    · simp only [covers_cons, Range.mem_iff]
      simp only [Range.Valid] at this
      constructor
      · rintro (h | h)
        · by_cases c ≤ last.hi
          · exact .inl (.inl ⟨h.1, by omega⟩)
          · exact .inr ⟨by omega, by omega⟩
        · exact .inl (.inr h)
      · rintro ((h | h) | h)
        · exact .inl ⟨h.1, by omega⟩
        · exact .inr h
        · exact .inl ⟨by omega, by omega⟩
    · simp only [covers_cons]
      exact or_comm

structure Absorbed (low : Nat) (done : List Range) : Prop where
  canonical : Canonical done.reverse
  early : ∀ s ∈ done, s.lo ≤ low

theorem Absorbed.absorb {low : Nat} {done : List Range} {r : Range}
    (so_far : Absorbed low done) (rv : r.Valid) (start : low ≤ r.lo) :
    Absorbed r.lo (Ranges.absorb done r) := by
  obtain ⟨⟨valid, ordered⟩, early⟩ := so_far
  cases done with
  | nil => exact ⟨canonical_singleton rv, by simp [Ranges.absorb]⟩
  | cons last done =>
    simp only [List.reverse_cons, List.mem_append, List.mem_reverse, List.mem_singleton,
      List.pairwise_append, forall_eq] at valid ordered
    have lastv := valid last (.inr rfl)
    have lastl := early last (by simp)
    simp only [Ranges.absorb]
    split
    · rename_i touching
      simp only [Range.Valid] at lastv rv
      refine ⟨⟨?_, ?_⟩, ?_⟩
      · intro s m
        simp only [List.reverse_cons, List.mem_append, List.mem_reverse, List.mem_singleton] at m
        rcases m with m | rfl
        · exact valid s (.inl m)
        · exact ⟨by simp only; omega, by simp only; omega⟩
      · simp only [List.reverse_cons, List.pairwise_append]
        refine ⟨ordered.1, List.pairwise_singleton _ _, ?_⟩
        intro s m t h
        rw [List.mem_singleton.1 h]
        exact ordered.2.2 s (by simpa using m)
      · intro s m
        rcases List.mem_cons.1 m with rfl | m
        · simp only; omega
        · have := early s (by simp [m]); omega
    · rename_i apart
      refine ⟨⟨?_, ?_⟩, ?_⟩
      · intro s m
        simp only [List.reverse_cons, List.mem_append, List.mem_reverse, List.mem_singleton] at m
        rcases m with (m | rfl) | rfl
        · exact valid s (.inl m)
        · exact lastv
        · exact rv
      · simp only [List.reverse_cons, List.pairwise_append, List.mem_append, List.mem_reverse,
          List.mem_singleton, forall_eq]
        refine ⟨ordered, List.pairwise_singleton _ _, ?_⟩
        intro s m
        rcases m with m | rfl
        · have := ordered.2.2 s m
          have := lastv.1
          simp only [Range.Before] at *
          omega
        · simp only [Range.Before]; omega
      · intro s m
        rcases List.mem_cons.1 m with rfl | m
        · exact Nat.le_refl _
        · have := early s m; omega

theorem foldl_absorb {low : Nat} {done rs : List Range} (so_far : Absorbed low done)
    (valid : ∀ r ∈ rs, r.Valid) (sorted : rs.Pairwise fun r s => r.lo ≤ s.lo)
    (start : ∀ r ∈ rs, low ≤ r.lo) :
    Canonical (rs.foldl absorb done).reverse ∧
      ∀ c, Covers (rs.foldl absorb done).reverse c ↔ Covers done c ∨ Covers rs c := by
  induction rs generalizing low done with
  | nil =>
    refine ⟨so_far.canonical, fun c => ?_⟩
    simp [Covers]
  | cons r rs ih =>
    obtain ⟨next, sorted⟩ := List.pairwise_cons.1 sorted
    have step := so_far.absorb (valid r (by simp)) (start r (by simp))
    obtain ⟨canonical, members⟩ := ih step (fun s m => valid s (by simp [m])) sorted next
    refine ⟨canonical, fun c => (members c).trans ?_⟩
    rw [covers_absorb fun s m => ⟨?_, ?_⟩, covers_cons, or_assoc]
    · exact so_far.canonical.valid s (by simpa using m)
    · have := so_far.early s m
      have := start r (by simp)
      omega

/-- Ranges that start in ascending order are joined to a canonical list with the same members. -/
theorem joined_canonical {rs : List Range} (valid : ∀ r ∈ rs, r.Valid)
    (sorted : rs.Pairwise fun r s => r.lo ≤ s.lo) :
    Canonical (rs.foldl absorb []).reverse ∧
      ∀ c, Covers (rs.foldl absorb []).reverse c ↔ Covers rs c := by
  have nothing : Absorbed 0 [] := ⟨canonical_nil, by simp⟩
  obtain ⟨canonical, members⟩ := foldl_absorb nothing valid sorted (by simp)
  exact ⟨canonical, fun c => (members c).trans (by simp)⟩

theorem arrange_canonical (rs : List Range) (valid : ∀ r ∈ rs, r.Valid) :
    Canonical (arrange rs) ∧ ∀ c, Covers (arrange rs) c ↔ Covers rs c := by
  simp only [arrange]
  split
  · rename_i ordered
    exact ⟨canonical_of_inOrder valid ordered, fun _ => Iff.rfl⟩
  · have sorted : (rs.mergeSort fun r s => r.lo ≤ s.lo).Pairwise fun r s => r.lo ≤ s.lo := by
      have := @List.pairwise_mergeSort Range (fun r s => decide (r.lo ≤ s.lo))
        (by intro a b c; simp only [decide_eq_true_eq]; omega)
        (by intro a b; simp only [Bool.or_eq_true, decide_eq_true_eq]; omega) rs
      exact this.imp (by simp)
    obtain ⟨canonical, members⟩ := joined_canonical (by simpa using valid) sorted
    exact ⟨canonical, fun c => (members c).trans (by simp [Covers])⟩

def gaps (next : Nat) : List Range → List Range
  | [] => if next ≤ lastCodepoint then [⟨next, lastCodepoint⟩] else []
  | r :: rs =>
    if next < r.lo then ⟨next, r.lo - 1⟩ :: gaps (r.hi + 1) rs else gaps (r.hi + 1) rs

theorem le_of_mem_gaps {next : Nat} {rs : List Range} {s : Range} (canonical : Canonical rs)
    (start : ∀ r ∈ rs, next ≤ r.lo) (m : s ∈ gaps next rs) : next ≤ s.lo := by
  induction rs generalizing next with
  | nil =>
    simp only [gaps, List.mem_ite_nil_right, List.mem_singleton] at m
    simp [m.2]
  | cons r rs ih =>
    obtain ⟨rv, before, canonical⟩ := canonical_cons.1 canonical
    have rest (m : s ∈ gaps (r.hi + 1) rs) : next ≤ s.lo := by
      have := ih canonical (fun t h => by have := before t h; simp only [Range.Before] at this; omega) m
      have := start r (by simp)
      have := rv.1
      omega
    simp only [gaps] at m
    split at m
    · rcases List.mem_cons.1 m with rfl | m
      · exact Nat.le_refl _
      · exact rest m
    · exact rest m

theorem gaps_canonical {next : Nat} {rs : List Range} (canonical : Canonical rs)
    (start : ∀ r ∈ rs, next ≤ r.lo) : Canonical (gaps next rs) := by
  induction rs generalizing next with
  | nil =>
    simp only [gaps]
    split
    · exact canonical_cons.2 ⟨⟨by assumption, Nat.le_refl _⟩, by simp, canonical_nil⟩
    · exact canonical_nil
  | cons r rs ih =>
    obtain ⟨rv, before, canonical⟩ := canonical_cons.1 canonical
    have from_next : ∀ t ∈ rs, r.hi + 1 ≤ t.lo := fun t h => by
      have := before t h
      simp only [Range.Before] at this
      omega
    have rest := ih canonical from_next
    simp only [gaps]
    split
    · refine canonical_cons.2 ⟨⟨by simp only; omega, ?_⟩, ?_, rest⟩
      · have := rv.1
        have := rv.2
        simp only
        omega
      · intro s m
        have := le_of_mem_gaps canonical from_next m
        have := rv.1
        simp only [Range.Before]
        omega
    · exact rest

theorem covers_gaps {next : Nat} {rs : List Range} {c : Nat}
    (canonical : Canonical rs) (start : ∀ r ∈ rs, next ≤ r.lo) :
    Covers (gaps next rs) c ↔ next ≤ c ∧ c ≤ lastCodepoint ∧ ¬ Covers rs c := by
  induction rs generalizing next with
  | nil =>
    simp only [gaps]
    split
    · simp [Range.mem_iff]
    · simp; omega
  | cons r rs ih =>
    obtain ⟨rv, before, canonical⟩ := canonical_cons.1 canonical
    have from_next : ∀ t ∈ rs, r.hi + 1 ≤ t.lo := fun t h => by
      have := before t h
      simp only [Range.Before] at this
      omega
    have later : Covers rs c → r.hi + 1 < c := fun covered =>
      Nat.lt_of_not_le fun low => not_covers_of_before before low covered
    have first := start r (by simp)
    have rest := ih canonical from_next
    simp only [Range.Valid] at rv
    simp only [gaps, covers_cons, Range.mem_iff]
    generalize Covers rs c = covered at later rest
    by_cases inside : covered
    · have beyond := later inside
      simp only [inside, not_true_eq_false, and_false, or_true, iff_false] at rest ⊢
      split
      · simp only [covers_cons, rest, or_false, Range.mem_iff]
        omega
      · exact rest
    · simp only [inside, not_false_eq_true, and_true, or_false] at rest ⊢
      split
      · simp only [covers_cons, rest, Range.mem_iff]
        omega
      · simp only [rest]
        omega

def cut (r : Range) : List Range → List Range
  | [] => [r]
  | e :: es =>
    if r.hi < e.lo then [r]
    else
      let rest := if r.hi ≤ e.hi then [] else cut ⟨e.hi + 1, r.hi⟩ es
      if r.lo < e.lo then ⟨r.lo, e.lo - 1⟩ :: rest else rest

/-- The first ranges less the second. Ranges that end before the current one starts are dropped
once, for it and for all that follow. -/
def subtract : List Range → List Range → List Range
  | [], _ => []
  | r :: rs, es =>
    let es := es.dropWhile fun e => e.hi < r.lo
    cut r es ++ subtract rs es

theorem cut_canonical {r : Range} {es : List Range} (rv : r.Valid) (canonical : Canonical es)
    (reach : ∀ e ∈ es, r.lo ≤ e.hi) :
    Canonical (cut r es) ∧ ∀ s ∈ cut r es, r.lo ≤ s.lo ∧ s.hi ≤ r.hi := by
  induction es generalizing r with
  | nil => exact ⟨canonical_singleton rv, by simp [cut]⟩
  | cons e es ih =>
    obtain ⟨ev, before, canonical⟩ := canonical_cons.1 canonical
    simp only [Range.Valid] at rv ev
    have rest : Canonical (if r.hi ≤ e.hi then [] else cut ⟨e.hi + 1, r.hi⟩ es) ∧
        ∀ s ∈ (if r.hi ≤ e.hi then [] else cut ⟨e.hi + 1, r.hi⟩ es),
          e.hi + 1 ≤ s.lo ∧ s.hi ≤ r.hi := by
      split
      · exact ⟨canonical_nil, by simp⟩
      · refine ih (r := ⟨e.hi + 1, r.hi⟩) ⟨by simp only; omega, by simp only; omega⟩ canonical ?_
        intro t m
        have tb := before t m
        have := (canonical.valid t m).1
        simp only [Range.Before] at tb ⊢
        omega
    have reached := reach e (by simp)
    simp only [cut]
    generalize (if r.hi ≤ e.hi then [] else cut ⟨e.hi + 1, r.hi⟩ es) = tail at rest
    split
    · exact ⟨canonical_singleton rv, by simp⟩
    · split
      · refine ⟨canonical_cons.2 ⟨⟨by simp only; omega, by simp only; omega⟩, ?_, rest.1⟩, ?_⟩
        · intro s m
          have := rest.2 s m
          simp only [Range.Before]
          omega
        · intro s m
          rcases List.mem_cons.1 m with rfl | m
          · exact ⟨Nat.le_refl _, by simp only; omega⟩
          · have := rest.2 s m
            omega
      · exact ⟨rest.1, fun s m => by have := rest.2 s m; omega⟩

theorem covers_cut {r : Range} {es : List Range} {c : Nat} (canonical : Canonical es)
    (reach : ∀ e ∈ es, r.lo ≤ e.hi) : Covers (cut r es) c ↔ c ∈ r ∧ ¬ Covers es c := by
  induction es generalizing r with
  | nil => simp [cut]
  | cons e es ih =>
    obtain ⟨ev, before, canonical⟩ := canonical_cons.1 canonical
    have reached := reach e (by simp)
    have ih := ih (r := ⟨e.hi + 1, r.hi⟩) canonical fun t m => by
      have tb := before t m
      have := (canonical.valid t m).1
      simp only [Range.Before] at tb ⊢
      omega
    have later : Covers es c → e.hi + 1 < c := fun covered =>
      Nat.lt_of_not_le fun low => not_covers_of_before before low covered
    simp only [Range.Valid] at ev
    have rest : Covers (if r.hi ≤ e.hi then [] else cut ⟨e.hi + 1, r.hi⟩ es) c ↔
        e.hi < c ∧ c ≤ r.hi ∧ ¬ Covers es c := by
      split
      · simp only [not_covers_nil, false_iff]
        omega
      · rw [ih, Range.mem_iff, and_assoc, Nat.succ_le_iff]
    simp only [cut, covers_cons, Range.mem_iff]
    generalize (if r.hi ≤ e.hi then [] else cut ⟨e.hi + 1, r.hi⟩ es) = tail at rest
    generalize Covers es c = covered at later rest
    by_cases inside : covered
    · have beyond := later inside
      simp only [inside, not_true_eq_false, and_false, or_true, iff_false] at rest ⊢
      split
      · simp only [covers_cons, not_covers_nil, or_false, Range.mem_iff]
        omega
      · split
        · simp only [covers_cons, rest, or_false, Range.mem_iff]
          omega
        · exact rest
    · simp only [inside, not_false_eq_true, and_true, or_false] at rest ⊢
      split
      · simp only [covers_cons, not_covers_nil, or_false, Range.mem_iff]
        omega
      · split
        · simp only [covers_cons, rest, Range.mem_iff]
          omega
        · simp only [rest]
          omega

theorem canonical_dropWhile {rs : List Range} (p : Range → Bool) (canonical : Canonical rs) :
    Canonical (rs.dropWhile p) :=
  ⟨fun r m => canonical.valid r ((List.dropWhile_sublist p).subset m),
    canonical.ordered.sublist (List.dropWhile_sublist p)⟩

theorem covers_dropWhile {es : List Range} {low c : Nat} (h : low ≤ c) :
    Covers (es.dropWhile fun e => e.hi < low) c ↔ Covers es c := by
  induction es with
  | nil => rfl
  | cons e es ih =>
    rw [List.dropWhile_cons]
    split
    · rename_i early
      simp only [decide_eq_true_eq] at early
      rw [ih, covers_cons]
      simp only [Range.mem_iff]
      constructor
      · exact .inr
      · rintro (inside | rest)
        · omega
        · exact rest
    · rfl

theorem reach_of_dropWhile {es : List Range} (low : Nat) (canonical : Canonical es) :
    ∀ e ∈ es.dropWhile (fun e => e.hi < low), low ≤ e.hi := by
  induction es with
  | nil => simp
  | cons e es ih =>
    obtain ⟨ev, before, canonical⟩ := canonical_cons.1 canonical
    rw [List.dropWhile_cons]
    split
    · exact ih canonical
    · rename_i late
      simp only [decide_eq_true_eq, Nat.not_lt] at late
      intro t m
      rcases List.mem_cons.1 m with rfl | m
      · exact late
      · have tb := before t m
        have := (canonical.valid t m).1
        simp only [Range.Before] at tb
        omega

theorem subtract_canonical {rs es : List Range} (hr : Canonical rs) (he : Canonical es) :
    Canonical (subtract rs es) ∧
      ∀ s ∈ subtract rs es, ∃ r ∈ rs, r.lo ≤ s.lo ∧ s.hi ≤ r.hi := by
  induction rs generalizing es with
  | nil => exact ⟨canonical_nil, by simp [subtract]⟩
  | cons r rs ih =>
    obtain ⟨rv, before, hr⟩ := canonical_cons.1 hr
    have dropped := canonical_dropWhile (fun e => decide (e.hi < r.lo)) he
    have piece := cut_canonical rv dropped (reach_of_dropWhile r.lo he)
    have rest := ih hr dropped
    simp only [subtract]
    refine ⟨⟨?_, List.pairwise_append.2 ⟨piece.1.ordered, rest.1.ordered, ?_⟩⟩, ?_⟩
    · intro s m
      rcases List.mem_append.1 m with m | m
      · exact piece.1.valid s m
      · exact rest.1.valid s m
    · intro s m t n
      have := piece.2 s m
      obtain ⟨u, hu, _, _⟩ := rest.2 t n
      have := before u hu
      simp only [Range.Before] at *
      omega
    · intro s m
      rcases List.mem_append.1 m with m | m
      · exact ⟨r, by simp, piece.2 s m⟩
      · obtain ⟨u, hu, h⟩ := rest.2 s m
        exact ⟨u, by simp [hu], h⟩

theorem covers_subtract {rs es : List Range} {c : Nat} (hr : Canonical rs)
    (he : Canonical es) : Covers (subtract rs es) c ↔ Covers rs c ∧ ¬ Covers es c := by
  induction rs generalizing es with
  | nil => simp [subtract]
  | cons r rs ih =>
    obtain ⟨rv, before, hr⟩ := canonical_cons.1 hr
    have dropped := canonical_dropWhile (fun e => decide (e.hi < r.lo)) he
    have reach := reach_of_dropWhile r.lo he
    simp only [subtract, covers_append, covers_cons, covers_cut dropped reach, ih hr dropped]
    by_cases low : r.lo ≤ c
    · rw [covers_dropWhile low, or_and_right]
    · have outside : ¬ Covers rs c := not_covers_of_before before (by have := rv.1; omega)
      simp only [Range.mem_iff, outside, low, false_and, or_false]

end Ranges

end SchemaRegex

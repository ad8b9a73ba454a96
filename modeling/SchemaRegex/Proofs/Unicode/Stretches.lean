import SchemaRegex.Proofs.Unicode.DataLines
import SchemaRegex.Proofs.Unicode.RunSets
import SchemaRegex.Proofs.Unicode.RunText

/-!
# From entries to runs

Entries in ascending order become one entry for every codepoint, from 0 to the last one given, and then
stretches of one kind each. Stretches that stand next to each other differ in their kinds. This is why a
stretch of letters in turn may be read on its own: none stand directly before it
(`runs_of_stretches`).
-/

namespace SchemaRegex.Unicode

def fillFrom (next : Nat) : List Entry → List Entry
  | [] => []
  | e :: es =>
    (List.range' next (e.codepoint - next)).map (⟨·, .gap⟩) ++ e :: fillFrom (e.codepoint + 1) es

theorem flatMap_zip_eq_fillFrom (next : Nat) (es : List Entry) :
    ((es.zip (next :: es.map (·.codepoint + 1))).flatMap fun (entry, next) =>
      (List.range' next (entry.codepoint - next)).map (⟨·, .gap⟩) ++ [entry]) = fillFrom next es := by
  induction es generalizing next with
  | nil => rfl
  | cons e es ih =>
    rw [List.map_cons, List.zip_cons_cons, List.flatMap_cons, ih]
    simp [fillFrom]

theorem fillGaps_eq (es : List Entry) : fillGaps es = fillFrom 0 es :=
  flatMap_zip_eq_fillFrom 0 es

def Consecutive (es : List Entry) : Prop :=
  es.map (·.codepoint) = List.range' 0 es.length

theorem codepoints_fillFrom {next : Nat} {es : List Entry}
    (ascending : es.Pairwise (·.codepoint < ·.codepoint)) (above : ∀ e ∈ es, next ≤ e.codepoint) :
    (fillFrom next es).map (·.codepoint) = List.range' next (fillFrom next es).length := by
  induction es generalizing next with
  | nil => rfl
  | cons e es ih =>
    obtain ⟨less, later⟩ := List.pairwise_cons.mp ascending
    have others := ih later less
    have low := above e List.mem_cons_self
    have place : next + (e.codepoint - next) = e.codepoint := by omega
    simp only [fillFrom, List.map_append, List.map_map, List.map_cons, others, List.length_append,
      List.length_map, List.length_range', List.length_cons, ← List.range'_append_1, place,
      List.range'_succ]
    simp [Function.comp_def]

theorem mem_fillFrom {next : Nat} {es : List Entry} {c : Nat} {category : GeneralCategory} :
    ⟨c, .category category⟩ ∈ fillFrom next es ↔ ⟨c, .category category⟩ ∈ es := by
  induction es generalizing next with
  | nil => rfl
  | cons e es ih => simp [fillFrom, ih]

theorem mem_or_gap_of_mem_fillFrom {next : Nat} {es : List Entry} {e : Entry}
    (member : e ∈ fillFrom next es) : e ∈ es ∨ e.kind = .gap ∧ ∃ f ∈ es, e.codepoint < f.codepoint := by
  induction es generalizing next with
  | nil => cases member
  | cons f es ih =>
    obtain gap | rest := List.mem_append.mp member
    · obtain ⟨c, range, same⟩ := List.mem_map.mp gap
      rw [List.mem_range'_1] at range
      subst same
      exact .inr ⟨rfl, f, List.mem_cons_self, by simp only; omega⟩
    obtain here | rest := List.mem_cons.mp rest
    · exact .inl (here ▸ List.mem_cons_self)
    · obtain given | ⟨kind, g, behind, less⟩ := ih rest
      · exact .inl (List.mem_cons_of_mem f given)
      · exact .inr ⟨kind, g, List.mem_cons_of_mem f behind, less⟩

theorem consecutive_fillGaps {es : List Entry} (ordered : Ordered es) :
    Consecutive (fillGaps es) ∧ (∀ e ∈ fillGaps es, e.codepoint ≤ lastCodepoint) ∧
      ∀ e ∈ fillGaps es, e.kind ≠ .alternating := by
  rw [fillGaps_eq]
  refine ⟨codepoints_fillFrom ordered.ascending fun e _ => Nat.zero_le e.codepoint, ?_, ?_⟩
  · intro e member
    obtain given | ⟨_, f, behind, less⟩ := mem_or_gap_of_mem_fillFrom member
    · exact ordered.inCodespace e given
    · exact Nat.le_trans (Nat.le_of_lt less) (ordered.inCodespace f behind)
  · intro e member same
    obtain given | ⟨kind, _⟩ := mem_or_gap_of_mem_fillFrom member
    · obtain ⟨category, kind⟩ := ordered.kinds e given
      cases same.symm.trans kind
    · cases same.symm.trans kind

theorem Consecutive.codepoint {es : List Entry} (consecutive : Consecutive es) {i : Nat} {e : Entry}
    (here : es[i]? = some e) : e.codepoint = i := by
  have place : (es.map (·.codepoint))[i]? = some e.codepoint := by simp [here]
  rw [consecutive, List.getElem?_range' (List.getElem?_eq_some_iff.mp here).1] at place
  have same := Option.some.inj place
  omega

theorem Consecutive.getElem?_kindsOf {es : List Entry} (consecutive : Consecutive es) {c : Nat}
    {kind : RunKind} : (kindsOf es)[c]? = some kind ↔ ⟨c, kind⟩ ∈ es := by
  rw [kindsOf, List.getElem?_map, Option.map_eq_some_iff]
  constructor
  · intro given
    obtain ⟨e, here, same⟩ := given
    have place := consecutive.codepoint here
    subst same place
    exact List.mem_of_getElem? here
  · intro member
    obtain ⟨i, here⟩ := List.getElem?_of_mem member
    have place := consecutive.codepoint here
    simp only at place
    exact ⟨⟨c, kind⟩, place ▸ here, rfl⟩

theorem Consecutive.length_le {es : List Entry} (consecutive : Consecutive es)
    (inCodespace : ∀ e ∈ es, e.codepoint ≤ lastCodepoint) : es.length ≤ lastCodepoint + 1 := by
  cases length : es.length with
  | zero => exact Nat.zero_le _
  | succ n =>
    have inside : n < es.length := by omega
    have place := consecutive.codepoint (List.getElem?_eq_getElem inside)
    have small := inCodespace es[n] (List.getElem_mem inside)
    omega

def Stretch.run (s : Stretch) : Run := ⟨s.kind, s.stop - s.start + 1⟩

theorem Stretch.write_eq {s : Stretch} (ordered : s.start ≤ s.stop) (small : s.stop ≤ lastCodepoint) :
    s.write = s.run.write := by
  have length : (s.stop + (Text.maxWord + 1) - s.start) % (Text.maxWord + 1) = s.stop - s.start := by
    simp only [lastCodepoint] at small
    simp only [Text.maxWord]
    omega
  rw [Stretch.write, length]
  rfl

def collect (done : List Stretch) (entry : Entry) : List Stretch :=
  match done with
  | [] => [⟨entry.codepoint, entry.codepoint, entry.kind⟩]
  | last :: done =>
    if last.kind = entry.kind then { last with stop := entry.codepoint } :: done
    else ⟨entry.codepoint, entry.codepoint, entry.kind⟩ :: last :: done

theorem stretches_eq (es : List Entry) : stretches es = (es.foldl collect []).reverse := rfl

/-- The stretches, the latest first, stand for the given entries. The last one ends with them, and as
many alternating ones stand at its end as at theirs, up to an even number. -/
structure Collects (given : List Entry) (done : List Stretch) : Prop where
  kinds : done.reverse.flatMap (·.run.kinds) = unmark false (kindsOf given)
  bounds : ∀ s ∈ done, s.start ≤ s.stop ∧ s.stop < given.length
  last : ∀ s ∈ done.head?, s.stop + 1 = given.length ∧
    oddAfter false (kindsOf given) = oddAfter false (List.replicate s.run.length s.kind)

theorem kinds_succ (kind : RunKind) (n : Nat) :
    (Run.mk kind (n + 1)).kinds =
      (Run.mk kind n).kinds ++ unmark (oddAfter false (List.replicate n kind)) [kind] := by
  rw [Run.kinds, List.replicate_succ', unmark_append]
  rfl

theorem oddAfter_replicate {kind : RunKind} (plain : kind ≠ .alternating) (n : Nat) :
    oddAfter false (List.replicate n kind) = false := by
  induction n with
  | zero => rfl
  | succ n ih => rw [List.replicate_succ, oddAfter_cons plain, ih]

/-- Where the kind changes, letters in turn start anew. -/
theorem unmark_of_ne {before kind : RunKind} (differ : before ≠ kind) (n : Nat) :
    unmark (oddAfter false (List.replicate n before)) [kind] = unmark false [kind] ∧
      oddAfter (oddAfter false (List.replicate n before)) [kind] = oddAfter false [kind] := by
  cases kind with
  | alternating => simp [oddAfter_replicate differ]
  | gap => exact ⟨rfl, rfl⟩
  | category c => exact ⟨rfl, rfl⟩

variable {given : List Entry} {done : List Stretch} {entry : Entry}

theorem collects_nil : Collects [] [] := by
  refine ⟨rfl, ?_, ?_⟩
  · intro s member
    cases member
  · intro s head
    cases head

theorem Collects.start (collects : Collects given done) (next : entry.codepoint = given.length)
    (unmarked : unmark (oddAfter false (kindsOf given)) [entry.kind] = unmark false [entry.kind])
    (odd : oddAfter (oddAfter false (kindsOf given)) [entry.kind] = oddAfter false [entry.kind]) :
    Collects (given ++ [entry]) (⟨entry.codepoint, entry.codepoint, entry.kind⟩ :: done) := by
  have length : (given ++ [entry]).length = given.length + 1 := by simp
  have one : (Stretch.mk entry.codepoint entry.codepoint entry.kind).run = ⟨entry.kind, 1⟩ := by
    simp [Stretch.run]
  refine ⟨?_, ?_, ?_⟩
  · rw [List.reverse_cons, List.flatMap_append, collects.kinds, kindsOf_append, unmark_append,
      List.flatMap_singleton, one]
    exact congrArg (unmark false (kindsOf given) ++ ·) unmarked.symm
  · intro s member
    obtain here | member := List.mem_cons.mp member
    · subst here
      exact ⟨Nat.le_refl _, by simp only; omega⟩
    · obtain ⟨ordered, inside⟩ := collects.bounds s member
      exact ⟨ordered, by omega⟩
  · intro s head
    cases head
    refine ⟨by simp only; omega, ?_⟩
    rw [kindsOf_append, oddAfter_append, one]
    exact odd

theorem Collects.extend {last : Stretch} (collects : Collects given (last :: done))
    (next : entry.codepoint = given.length) (same : last.kind = entry.kind) :
    Collects (given ++ [entry]) ({ last with stop := entry.codepoint } :: done) := by
  obtain ⟨stop, odd⟩ := collects.last last rfl
  have ordered := (collects.bounds last List.mem_cons_self).1
  have length : (given ++ [entry]).length = given.length + 1 := by simp
  have longer : (Stretch.mk last.start entry.codepoint last.kind).run =
      ⟨last.kind, last.run.length + 1⟩ := by
    simp only [Stretch.run, Run.mk.injEq, true_and]
    omega
  have kind : kindsOf [entry] = [last.kind] := by
    rw [same]
    rfl
  have kinds := collects.kinds
  rw [List.reverse_cons, List.flatMap_append, List.flatMap_singleton] at kinds
  refine ⟨?_, ?_, ?_⟩
  · rw [List.reverse_cons, List.flatMap_append, List.flatMap_singleton, longer, kinds_succ,
      kindsOf_append, unmark_append, ← kinds, List.append_assoc, odd, kind]
    rfl
  · intro s member
    obtain here | member := List.mem_cons.mp member
    · subst here
      exact ⟨by simp only; omega, by simp only; omega⟩
    · obtain ⟨ordered, inside⟩ := collects.bounds s (List.mem_cons_of_mem last member)
      exact ⟨ordered, by omega⟩
  · intro s head
    cases head
    refine ⟨by simp only; omega, ?_⟩
    rw [kindsOf_append, oddAfter_append, odd, kind, longer, List.replicate_succ', oddAfter_append]

theorem Collects.step (collects : Collects given done) (next : entry.codepoint = given.length) :
    Collects (given ++ [entry]) (collect done entry) := by
  cases done with
  | nil =>
    have nothing : given = [] := by
      have none := congrArg List.length collects.kinds
      rw [length_unmark, kindsOf, List.length_map] at none
      exact List.length_eq_zero_iff.mp none.symm
    subst nothing
    exact collects.start next rfl rfl
  | cons last done =>
    simp only [collect]
    split
    · rename_i same
      exact collects.extend next same
    · rename_i differ
      -- no alternating entry stands directly before one that starts a stretch of them
      have anew := unmark_of_ne differ last.run.length
      rw [← (collects.last last rfl).2] at anew
      exact collects.start next anew.1 anew.2

theorem Collects.foldl (collects : Collects given done) {entries : List Entry}
    (next : entries.map (·.codepoint) = List.range' given.length entries.length) :
    Collects (given ++ entries) (entries.foldl collect done) := by
  induction entries generalizing given done with
  | nil => simpa using collects
  | cons entry entries ih =>
    rw [List.map_cons, List.length_cons, List.range'_succ, List.cons.injEq] at next
    have all := ih (collects.step next.1) (by rw [next.2]; simp)
    simpa using all

/-- Consecutive entries are written as runs that a table can hold, and the kinds of these are what the
entries stand for. -/
theorem runs_of_stretches {es : List Entry} (consecutive : Consecutive es)
    (inCodespace : ∀ e ∈ es, e.codepoint ≤ lastCodepoint) :
    ∃ runs : List Run, (stretches es).flatMap Stretch.write = runs.flatMap Run.write ∧
      (∀ run ∈ runs, 0 < run.length ∧ run.length ≤ 0x1000000) ∧
      runs.flatMap Run.kinds = unmark false (kindsOf es) := by
  have collects := collects_nil.foldl consecutive
  rw [List.nil_append] at collects
  have short := consecutive.length_le inCodespace
  rw [stretches_eq]
  refine ⟨(es.foldl collect []).reverse.map Stretch.run, ?_, ?_, ?_⟩
  · rw [List.flatMap_map]
    refine List.flatMap_congr fun s member => ?_
    obtain ⟨ordered, inside⟩ := collects.bounds s (List.mem_reverse.mp member)
    exact s.write_eq ordered (by omega)
  · intro run member
    obtain ⟨s, stretch, same⟩ := List.mem_map.mp member
    obtain ⟨_, inside⟩ := collects.bounds s (List.mem_reverse.mp stretch)
    subst same
    simp only [Stretch.run]
    simp only [lastCodepoint] at short
    omega
  · rw [List.flatMap_map]
    exact collects.kinds

end SchemaRegex.Unicode

import SchemaRegex.Unicode.CategoryData

/-!
# Letters in turn

Marking upper and lower case letters in turn loses nothing: what an alternating entry was is known from
how many alternating ones stand directly before it (`unmark_markAlternations`).

The marking may still change its last two entries. What carries the induction over the entries is the
number of alternating ones at the end, of which only the parity matters: it is odd where a lower case
letter comes next, and even before every upper case letter that may start a new stretch.
-/

namespace SchemaRegex.Unicode

def letterInTurn (odd : Bool) : RunKind :=
  .category (if odd then .lowercaseLetter else .uppercaseLetter)

/-- The kinds before they were marked; `odd` tells about the alternating ones before. -/
def unmark (odd : Bool) : List RunKind → List RunKind
  | [] => []
  | .alternating :: kinds => letterInTurn odd :: unmark (!odd) kinds
  | kind :: kinds => kind :: unmark false kinds

def oddAfter (odd : Bool) : List RunKind → Bool
  | [] => odd
  | .alternating :: kinds => oddAfter (!odd) kinds
  | _ :: kinds => oddAfter false kinds

theorem unmark_cons {kind : RunKind} (plain : kind ≠ .alternating) (odd : Bool) (kinds : List RunKind) :
    unmark odd (kind :: kinds) = kind :: unmark false kinds := by
  cases kind with
  | alternating => contradiction
  | gap => rfl
  | category c => rfl

theorem oddAfter_cons {kind : RunKind} (plain : kind ≠ .alternating) (odd : Bool)
    (kinds : List RunKind) : oddAfter odd (kind :: kinds) = oddAfter false kinds := by
  cases kind with
  | alternating => contradiction
  | gap => rfl
  | category c => rfl

theorem unmark_append (odd : Bool) (front kinds : List RunKind) :
    unmark odd (front ++ kinds) = unmark odd front ++ unmark (oddAfter odd front) kinds := by
  induction front generalizing odd with
  | nil => rfl
  | cons kind front ih => cases kind <;> simp [unmark, oddAfter, ih]

theorem oddAfter_append (odd : Bool) (front kinds : List RunKind) :
    oddAfter odd (front ++ kinds) = oddAfter (oddAfter odd front) kinds := by
  induction front generalizing odd with
  | nil => rfl
  | cons kind front ih => cases kind <;> exact ih _

@[simp] theorem length_unmark (odd : Bool) (kinds : List RunKind) :
    (unmark odd kinds).length = kinds.length := by
  induction kinds generalizing odd with
  | nil => rfl
  | cons kind kinds ih => cases kind <;> simp [unmark, ih]

def kindsOf (entries : List Entry) : List RunKind := entries.map (·.kind)

namespace Marking

def front (m : Marking) : List Entry := m.finished.reverse ++ m.first.toList

theorem entries_eq (m : Marking) : m.entries = m.front ++ m.second.toList :=
  (List.append_assoc _ _ _).symm

theorem reverse_finished_shift (m : Marking) (entry : Entry) (turn : Turn) :
    (m.shift entry turn).finished.reverse = m.front := by
  unfold shift front
  cases m.first <;> simp

theorem front_shift (m : Marking) (entry : Entry) (turn : Turn) :
    (m.shift entry turn).front = m.entries := by
  rw [front, reverse_finished_shift, entries_eq]
  rfl

theorem entries_shift (m : Marking) (entry : Entry) (turn : Turn) :
    (m.shift entry turn).entries = m.entries ++ [entry] := by
  rw [entries_eq, front_shift]
  rfl

structure Stands (given : List Entry) (m : Marking) : Prop where
  codepoints : m.entries.map (·.codepoint) = given.map (·.codepoint)
  unmarked : unmark false (kindsOf m.entries) = kindsOf given

/-- Outside of a stretch the last entry is not alternating, and an upper case letter among the last two
has an even number of alternating ones before it. -/
structure Outside (m : Marking) : Prop where
  nothing : m.second = none → m.entries = []
  first : ∀ f, m.first = some f → f.kind = letterInTurn false →
    oddAfter false (kindsOf m.finished.reverse) = false
  second : ∀ s, m.second = some s → s.kind ≠ .alternating ∧
    (s.kind = letterInTurn false → oddAfter false (kindsOf m.front) = false)

/-- Inside of a stretch the last entry is alternating, and the parity tells what is due. -/
structure Inside (odd : Bool) (m : Marking) : Prop where
  second : ∃ s, m.second = some s ∧ s.kind = .alternating
  parity : oddAfter false (kindsOf m.entries) = odd

def Fits (m : Marking) : Prop :=
  match m.turn with
  | .outside => m.Outside
  | .lower => m.Inside true
  | .upper => m.Inside false

end Marking

open Marking

variable {given : List Entry} {m : Marking} {entry : Entry}

theorem kindsOf_append (es fs : List Entry) : kindsOf (es ++ fs) = kindsOf es ++ kindsOf fs :=
  List.map_append

theorem Marking.Stands.shift (stands : m.Stands given) {next : Entry} (turn : Turn)
    (codepoint : next.codepoint = entry.codepoint)
    (kind : unmark (oddAfter false (kindsOf m.entries)) [next.kind] = [entry.kind]) :
    (m.shift next turn).Stands (given ++ [entry]) := by
  constructor
  · rw [entries_shift, List.map_append, List.map_append, stands.codepoints]
    simp [codepoint]
  · rw [entries_shift, kindsOf_append, kindsOf_append, unmark_append, stands.unmarked]
    exact congrArg (kindsOf given ++ ·) kind

/-- An entry that is left as it is ends a stretch, or none was there. -/
theorem Marking.Stands.shift_outside (stands : m.Stands given) (plain : entry.kind ≠ .alternating)
    (last : ∀ s, m.second = some s → s.kind = letterInTurn false →
      oddAfter false (kindsOf m.front) = false)
    (all : entry.kind = letterInTurn false → oddAfter false (kindsOf m.entries) = false) :
    (m.shift entry .outside).Stands (given ++ [entry]) ∧ (m.shift entry .outside).Fits := by
  refine ⟨stands.shift .outside rfl (unmark_cons plain _ []), ⟨?_, ?_, ?_⟩⟩
  · intro none
    cases none
  · intro f second upper
    rw [reverse_finished_shift]
    exact last f second upper
  · intro s same
    cases same
    rw [front_shift]
    exact ⟨plain, all⟩

/-- The letter that is due becomes alternating, and the other one is due. -/
theorem Marking.Stands.shift_inside (stands : m.Stands given) {odd : Bool}
    (parity : oddAfter false (kindsOf m.entries) = odd) (due : entry.kind = letterInTurn odd) :
    (m.shift (entry.withKind .alternating) (if odd then .upper else .lower)).Stands (given ++ [entry]) ∧
      (m.shift (entry.withKind .alternating) (if odd then .upper else .lower)).Fits := by
  have next : (m.shift (entry.withKind .alternating) (if odd then .upper else .lower)).Inside (!odd) := by
    refine ⟨⟨_, rfl, rfl⟩, ?_⟩
    rw [entries_shift, kindsOf_append, oddAfter_append, parity]
    rfl
  refine ⟨stands.shift _ rfl ?_, ?_⟩
  · rw [parity, due]
    rfl
  · cases odd with
    | false => exact next
    | true => exact next

theorem Marking.Inside.exists_last {odd : Bool} (inside : m.Inside odd) :
    ∃ s, m.second = some s ∧ s.kind = .alternating ∧ m.entries = m.front ++ [s] ∧
      oddAfter false (kindsOf m.front) = !odd := by
  obtain ⟨⟨s, second, kind⟩, parity⟩ := inside
  have entries : m.entries = m.front ++ [s] := by
    rw [entries_eq, second]
    rfl
  refine ⟨s, second, kind, entries, ?_⟩
  rw [entries, kindsOf_append, oddAfter_append] at parity
  simp only [kindsOf, List.map_cons, List.map_nil, kind, oddAfter] at parity
  rw [← parity, Bool.not_not]
  rfl

/-- Where an upper case letter comes in place of a lower case one, the last alternating entry is an
upper case letter again. -/
theorem Marking.Stands.undo (stands : m.Stands given) (inside : m.Inside true) {n : Marking}
    (same : n = { m with second := m.second.map (Entry.withKind · (letterInTurn false)) }) :
    n.Stands given ∧ oddAfter false (kindsOf n.front) = false ∧
      oddAfter false (kindsOf n.entries) = false := by
  obtain ⟨s, second, kind, entries, even⟩ := inside.exists_last
  have frontSame : n.front = m.front := by rw [same, front, front]
  have changed : n.entries = m.front ++ [s.withKind (letterInTurn false)] := by
    rw [entries_eq, frontSame, same, second]
    rfl
  have codepoints := stands.codepoints
  have unmarked := stands.unmarked
  rw [entries, List.map_append] at codepoints
  rw [entries, kindsOf_append, unmark_append, even] at unmarked
  refine ⟨⟨?_, ?_⟩, by rw [frontSame]; exact even, ?_⟩
  · rw [changed, List.map_append]
    exact codepoints
  · rw [changed, kindsOf_append, unmark_append, even]
    simp only [kindsOf, List.map_cons, List.map_nil, kind] at unmarked
    exact unmarked
  · rw [changed, kindsOf_append, oddAfter_append]
    rfl

/-- A stretch starts with the last two entries, an upper and a lower case letter. -/
theorem Marking.Stands.begin (stands : m.Stands given) (outside : m.Outside) {f s : Entry}
    (first : m.first = some f) (second : m.second = some s) (upper : f.kind = letterInTurn false)
    (lower : s.kind = letterInTurn true) {n : Marking}
    (same : n = { m with
      first := some (f.withKind .alternating), second := some (s.withKind .alternating) }) :
    n.Stands given ∧ oddAfter false (kindsOf n.entries) = false := by
  have even := outside.first f first upper
  have entries : m.entries = m.finished.reverse ++ [f, s] := by
    rw [Marking.entries, first, second]
    rfl
  have changed :
      n.entries = m.finished.reverse ++ [f.withKind .alternating, s.withKind .alternating] := by
    rw [same]
    rfl
  have codepoints := stands.codepoints
  have unmarked := stands.unmarked
  rw [entries, List.map_append] at codepoints
  rw [entries, kindsOf_append, unmark_append, even] at unmarked
  simp only [kindsOf, List.map_cons, List.map_nil, upper, lower] at unmarked
  refine ⟨⟨?_, ?_⟩, ?_⟩
  · rw [changed, List.map_append]
    exact codepoints
  · rw [changed, kindsOf_append, unmark_append, even]
    exact unmarked
  · rw [changed, kindsOf_append, oddAfter_append, even]
    rfl

theorem Marking.Stands.step (stands : m.Stands given) (fits : m.Fits)
    (plain : entry.kind ≠ .alternating) :
    (m.step entry).Stands (given ++ [entry]) ∧ (m.step entry).Fits := by
  unfold Marking.Fits at fits
  cases turn : m.turn with
  | outside =>
    rw [turn] at fits
    have outside : m.Outside := fits
    have ended : oddAfter false (kindsOf m.entries) = false := by
      cases second : m.second with
      | none => rw [outside.nothing second]; rfl
      | some s =>
        rw [entries_eq, second, kindsOf_append, oddAfter_append]
        exact oddAfter_cons (outside.second s second).1 _ []
    have keep := stands.shift_outside plain (fun s second => (outside.second s second).2)
      fun _ => ended
    simp only [Marking.step, turn]
    split
    · rename_i f s first second
      split
      · rename_i letters
        obtain ⟨upper, lower, third⟩ := letters
        obtain ⟨begun, even⟩ := stands.begin outside first second upper lower rfl
        exact begun.shift_inside even third
      · exact keep
    · exact keep
  | lower =>
    rw [turn] at fits
    have inside : m.Inside true := fits
    obtain ⟨s, second, kind, _⟩ := inside.exists_last
    simp only [Marking.step, turn]
    split
    · rename_i due
      exact stands.shift_inside inside.parity due
    · split
      · obtain ⟨undone, even, ended⟩ := stands.undo inside rfl
        exact undone.shift_outside plain (fun _ _ _ => even) fun _ => ended
      · rename_i other
        refine stands.shift_outside plain (fun t last upper => ?_) fun upper => absurd upper other
        cases second.symm.trans last
        rw [kind] at upper
        cases upper
  | upper =>
    rw [turn] at fits
    have inside : m.Inside false := fits
    obtain ⟨s, second, kind, _⟩ := inside.exists_last
    simp only [Marking.step, turn]
    split
    · rename_i due
      exact stands.shift_inside inside.parity due
    · rename_i other
      refine stands.shift_outside plain (fun t last upper => ?_) fun upper => absurd upper other
      cases second.symm.trans last
      rw [kind] at upper
      cases upper

theorem Marking.Stands.foldl (stands : m.Stands given) (fits : m.Fits) {entries : List Entry}
    (plain : ∀ entry ∈ entries, entry.kind ≠ .alternating) :
    (entries.foldl Marking.step m).Stands (given ++ entries) := by
  induction entries generalizing given m with
  | nil => simpa using stands
  | cons entry entries ih =>
    obtain ⟨next, nextFits⟩ := stands.step fits (plain entry List.mem_cons_self)
    have all := ih next nextFits fun other member => plain other (List.mem_cons_of_mem entry member)
    simpa using all

theorem stands_start : Marking.start.Stands [] ∧ Marking.start.Fits := by
  refine ⟨⟨rfl, rfl⟩, ⟨fun _ => rfl, ?_, ?_⟩⟩
  · intro f first
    cases first
  · intro s second
    cases second

/-- The marked entries have the same codepoints, and their kinds before the marking are known from the
kinds behind it. -/
theorem unmark_markAlternations {entries : List Entry}
    (plain : ∀ entry ∈ entries, entry.kind ≠ .alternating) :
    (markAlternations entries).map (·.codepoint) = entries.map (·.codepoint) ∧
      unmark false (kindsOf (markAlternations entries)) = kindsOf entries := by
  have all := stands_start.1.foldl stands_start.2 plain
  rw [List.nil_append] at all
  exact ⟨all.codepoints, all.unmarked⟩

end SchemaRegex.Unicode

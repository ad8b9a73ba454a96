import Mathlib.Data.List.Basic
import SchemaRegex.Matcher
import SchemaRegex.Proofs.Text.Numeral

/-!
# Reading a listing

Two programs with the same listing are the same (`listing_determines_program`). What separates the parts
of a listing does not stand in a part: no line has a line feed in it, no range and no target a space, and
no number a hyphen or a bracket. So lines, ranges, targets and numbers of any width can be told apart. A
location need not be read, since lines are in order.
-/

namespace SchemaRegex

namespace Text

variable {c d : Char} {xs ys : List (List Char)}

private theorem intercalate_cons (c : Char) (part : List Char) (parts : List (List Char)) :
    [c].intercalate (part :: parts) = part ++ parts.flatMap (c :: ·) := by
  induction parts generalizing part with
  | nil => simp
  | cons next parts ih => simp [ih]

private theorem eq_of_intercalate (apart : ∀ part ∈ xs, c ∉ part) (others : ∀ part ∈ ys, c ∉ part)
    (some : xs ≠ []) (more : ys ≠ []) (same : [c].intercalate xs = [c].intercalate ys) : xs = ys := by
  rw [← List.splitOn_intercalate c apart some, same, List.splitOn_intercalate c others more]

/-- Parts that each follow a separator are known from the text. -/
theorem eq_of_flatMap_cons (apart : ∀ part ∈ xs, c ∉ part) (others : ∀ part ∈ ys, c ∉ part)
    (same : xs.flatMap (c :: ·) = ys.flatMap (c :: ·)) : xs = ys := by
  have all : ([] : List Char) :: xs = [] :: ys := by
    apply eq_of_intercalate (c := c)
    · exact List.forall_mem_cons.mpr ⟨List.not_mem_nil, apart⟩
    · exact List.forall_mem_cons.mpr ⟨List.not_mem_nil, others⟩
    · exact List.cons_ne_nil _ _
    · exact List.cons_ne_nil _ _
    · rw [intercalate_cons, intercalate_cons, same]
  exact List.tail_eq_of_cons_eq all

/-- Words are known from the text they are joined to, which is empty only if there are none. -/
theorem eq_of_joined_words (apart : ∀ word ∈ xs, c ∉ word) (others : ∀ word ∈ ys, c ∉ word)
    (filled : ∀ word ∈ xs, word ≠ []) (full : ∀ word ∈ ys, word ≠ [])
    (same : [c].intercalate xs = [c].intercalate ys) : xs = ys := by
  cases xs with
  | nil =>
    cases ys with
    | nil => rfl
    | cons y ys =>
      rw [intercalate_cons] at same
      exact absurd (List.append_eq_nil_iff.mp same.symm).1 (full y List.mem_cons_self)
  | cons x xs =>
    cases ys with
    | nil =>
      rw [intercalate_cons] at same
      exact absurd (List.append_eq_nil_iff.mp same).1 (filled x List.mem_cons_self)
    | cons y ys => exact eq_of_intercalate apart others (List.cons_ne_nil _ _) (List.cons_ne_nil _ _) same

private theorem not_mem_flatMap_cons (other : d ≠ c) (apart : ∀ part ∈ xs, d ∉ part) :
    d ∉ xs.flatMap (c :: ·) := by
  intro member
  obtain ⟨part, given, inside⟩ := List.mem_flatMap.mp member
  rcases List.mem_cons.mp inside with same | inside
  · exact other same
  · exact apart part given inside

private theorem not_mem_intercalate (other : d ≠ c) (apart : ∀ part ∈ xs, d ∉ part) :
    d ∉ [c].intercalate xs := by
  cases xs with
  | nil => exact List.not_mem_nil
  | cons part parts =>
    rw [List.forall_mem_cons] at apart
    obtain ⟨first, others⟩ := apart
    rw [intercalate_cons, List.mem_append, not_or]
    exact ⟨first, not_mem_flatMap_cons other others⟩

/-- A separator behind each part and one in front is one in front of each part and of nothing. -/
theorem cons_flatMap_concat (c : Char) (xs : List (List Char)) :
    c :: xs.flatMap (· ++ [c]) = (xs ++ [[]]).flatMap (c :: ·) := by
  induction xs with
  | nil => rfl
  | cons x xs ih =>
    rw [List.cons_append, List.flatMap_cons, List.flatMap_cons, ← ih, List.append_assoc]
    rfl

private theorem not_mem_hexCodepoint {n : Nat} (other : digitValue? 16 c = none) (sign : c ≠ 'x') :
    c ∉ hexCodepoint n := by
  intro member
  have digit : (digitValue? 16 c).isSome := by
    rcases List.mem_cons.mp member with zero | member
    · rw [zero]
      rfl
    · rcases List.mem_cons.mp member with same | member
      · exact absurd same sign
      · exact digit_of_mem_paddedNumeral (by decide : 2 ≤ 16) (by decide) member
  rw [other] at digit
  cases digit

private theorem hexCodepoint_injective : Function.Injective hexCodepoint := by
  intro n m same
  apply paddedNumeral_injective (by decide : 2 ≤ 16) (by decide) 2
  exact List.tail_eq_of_cons_eq (List.tail_eq_of_cons_eq same)

end Text

private theorem not_mem_locationText {c : Char} {location : Nat} (other : Text.digitValue? 16 c = none) :
    c ∉ locationText location := by
  intro member
  have digit := Text.digit_of_mem_paddedNumeral (by decide : 2 ≤ 16) (by decide) member
  rw [other] at digit
  cases digit

private theorem forall_not_mem_locationText {c : Char} (other : Text.digitValue? 16 c = none)
    (locations : List Nat) : ∀ part ∈ locations.map locationText, c ∉ part :=
  List.forall_mem_map.mpr fun _ _ => not_mem_locationText other

private theorem locationText_injective : Function.Injective locationText :=
  Text.paddedNumeral_injective (by decide) (by decide) 5

namespace Range

private def ends (r : Range) : List Nat := if r.lo = r.hi then [r.lo] else [r.lo, r.hi]

private theorem head?_ends (r : Range) : r.ends.head? = some r.lo := by
  unfold ends
  split <;> rfl

private theorem getLast?_ends (r : Range) : r.ends.getLast? = some r.hi := by
  unfold ends
  split
  · rename_i one
    rw [← one]
    rfl
  · rfl

private theorem ends_injective : Function.Injective ends := by
  intro r s same
  have lo := r.head?_ends
  have hi := r.getLast?_ends
  rw [same, head?_ends] at lo
  rw [same, getLast?_ends] at hi
  cases r
  cases s
  cases lo
  cases hi
  rfl

private theorem listing_eq (r : Range) :
    r.listing = '[' :: (['-'].intercalate (r.ends.map Text.hexCodepoint) ++ [']']) := by
  unfold listing ends
  split <;> simp

private theorem listing_injective : Function.Injective listing := by
  have apart (r : Range) : ∀ word ∈ r.ends.map Text.hexCodepoint, '-' ∉ word :=
    List.forall_mem_map.mpr fun _ _ => Text.not_mem_hexCodepoint (by decide) (by decide)
  have filled (r : Range) : ∀ word ∈ r.ends.map Text.hexCodepoint, word ≠ [] :=
    List.forall_mem_map.mpr fun _ _ => List.cons_ne_nil _ _
  intro r s same
  rw [listing_eq, listing_eq] at same
  have inside := List.append_cancel_right (List.tail_eq_of_cons_eq same)
  have bounds := Text.eq_of_joined_words (apart r) (apart s) (filled r) (filled s) inside
  exact ends_injective (Text.hexCodepoint_injective.list_map bounds)

private theorem not_mem_listing {c : Char} {r : Range} (other : Text.digitValue? 16 c = none)
    (sign : c ∉ ['x', '[', '-', ']']) : c ∉ r.listing := by
  simp only [List.mem_cons, List.not_mem_nil, or_false, not_or] at sign
  obtain ⟨x, opening, hyphen, closing⟩ := sign
  have bounds : c ∉ ['-'].intercalate (r.ends.map Text.hexCodepoint) :=
    Text.not_mem_intercalate hyphen (List.forall_mem_map.mpr fun _ _ => Text.not_mem_hexCodepoint other x)
  simp [listing_eq, bounds, opening, closing]

end Range

private theorem forall_not_mem_listing {c : Char} (other : Text.digitValue? 16 c = none)
    (sign : c ∉ ['x', '[', '-', ']']) (rs : List Range) : ∀ part ∈ rs.map Range.listing, c ∉ part :=
  List.forall_mem_map.mpr fun r _ => r.not_mem_listing other sign

private theorem CodepointSet.listing_injective : Function.Injective CodepointSet.listing := by
  have apart (s : CodepointSet) : ∀ word ∈ s.ranges.toList.map Range.listing, ' ' ∉ word :=
    forall_not_mem_listing (by decide) (by decide) s.ranges.toList
  have filled (s : CodepointSet) : ∀ word ∈ s.ranges.toList.map Range.listing, word ≠ [] :=
    List.forall_mem_map.mpr fun r _ => r.listing_eq ▸ List.cons_ne_nil _ _
  intro s t same
  have words := Text.eq_of_joined_words (apart s) (apart t) (filled s) (filled t) same
  have ranges := Array.toList_inj.mp (Range.listing_injective.list_map words)
  cases s
  cases t
  cases ranges
  rfl

namespace Instruction

private def initials : Instruction → List Char
  | accept => ['M']
  | any => ['A']
  | literal _ => ['L']
  | set _ => ['C']
  | jump _ => ['J', 'F']

private def jumpWord (targets : Array Nat) : List Char :=
  (if targets.size = 1 then "JUMP" else "FORK").toList

@[simp] theorem listing_accept : accept.listing = ['M', 'A', 'T', 'C', 'H'] := rfl

@[simp] theorem listing_any : any.listing = ['A', 'N', 'Y'] := rfl

@[simp] theorem listing_literal (c : Nat) :
    (literal c).listing = ['L', 'I', 'T', ' '] ++ Text.hexCodepoint c := rfl

@[simp] theorem listing_set (s : CodepointSet) :
    (set s).listing = ['C', 'L', 'A', 'S', 'S', ' '] ++ s.listing := rfl

private theorem listing_jump (targets : Array Nat) :
    (jump targets).listing = jumpWord targets ++ (targets.toList.map locationText).flatMap (' ' :: ·) := by
  rw [List.flatMap_map]
  rfl

private theorem exists_initial (i : Instruction) : ∃ c ∈ i.initials, i.listing.head? = some c := by
  cases i with
  | accept => exact ⟨'M', List.mem_singleton_self _, rfl⟩
  | any => exact ⟨'A', List.mem_singleton_self _, rfl⟩
  | literal c => exact ⟨'L', List.mem_singleton_self _, rfl⟩
  | set s => exact ⟨'C', List.mem_singleton_self _, rfl⟩
  | jump targets =>
    rw [listing_jump, jumpWord]
    split
    · exact ⟨'J', List.mem_cons_self, rfl⟩
    · exact ⟨'F', List.mem_cons_of_mem _ List.mem_cons_self, rfl⟩

private theorem exists_common_initial {i j : Instruction} (same : i.listing = j.listing) :
    ∃ c, c ∈ i.initials ∧ c ∈ j.initials := by
  obtain ⟨c, first, head⟩ := i.exists_initial
  obtain ⟨d, second, other⟩ := j.exists_initial
  rw [same, other, Option.some.injEq] at head
  exact ⟨c, first, head ▸ second⟩

/-- The targets are known from the listing of a jump, whichever word it starts with. -/
theorem targets_eq_of_listing {ts us : Array Nat} (same : (jump ts).listing = (jump us).listing) :
    ts = us := by
  have word (targets : Array Nat) : (jumpWord targets).length = 4 := by
    rw [jumpWord]
    split <;> decide
  have apart := forall_not_mem_locationText (c := ' ') (by decide)
  rw [listing_jump, listing_jump] at same
  have locations := (List.append_inj same ((word ts).trans (word us).symm)).2
  exact Array.toList_inj.mp
    (locationText_injective.list_map (Text.eq_of_flatMap_cons (apart _) (apart _) locations))

private theorem listing_injective : Function.Injective listing := by
  intro i j same
  have common := exists_common_initial same
  cases i with
  | accept =>
    cases j with
    | accept => rfl
    | _ => simp [initials] at common
  | any =>
    cases j with
    | any => rfl
    | _ => simp [initials] at common
  | literal c =>
    cases j with
    | literal d => exact congrArg literal (Text.hexCodepoint_injective (List.append_cancel_left same))
    | _ => simp [initials] at common
  | set s =>
    cases j with
    | set t => exact congrArg set (CodepointSet.listing_injective (List.append_cancel_left same))
    | _ => simp [initials] at common
  | jump targets =>
    cases j with
    | jump others => exact congrArg jump (targets_eq_of_listing same)
    | _ => simp [initials] at common

private theorem newline_not_mem_listing (i : Instruction) : '\n' ∉ i.listing := by
  cases i with
  | accept => simp
  | any => simp
  | literal c =>
    have number : '\n' ∉ Text.hexCodepoint c := Text.not_mem_hexCodepoint (by decide) (by decide)
    simp [number]
  | set s =>
    have ranges : '\n' ∉ s.listing :=
      Text.not_mem_intercalate (by decide) (forall_not_mem_listing (by decide) (by decide) _)
    simp [ranges]
  | jump targets =>
    rw [listing_jump, List.mem_append, not_or]
    constructor
    · rw [jumpWord]
      split <;> simp
    · exact Text.not_mem_flatMap_cons (by decide) (forall_not_mem_locationText (by decide) _)

end Instruction

namespace Program

private def lines (p : Program) : List (List Char) :=
  p.toList.zipIdx.map fun (instr, location) => locationText location ++ ':' :: ' ' :: instr.listing

private theorem listing_eq (p : Program) : p.listing = (p.lines ++ [[]]).flatMap ('\n' :: ·) := by
  rw [← Text.cons_flatMap_concat, lines, List.flatMap_map]
  rfl

private theorem newline_not_mem_lines (p : Program) : ∀ line ∈ p.lines, '\n' ∉ line := by
  intro line member
  obtain ⟨⟨instr, location⟩, _, text⟩ := List.mem_map.mp member
  have place : '\n' ∉ locationText location := not_mem_locationText (by decide)
  rw [← text]
  simp [place, instr.newline_not_mem_listing]

private theorem lines_injective : Function.Injective lines := by
  intro p q same
  apply Array.toList_inj.mp
  apply List.ext_getElem
  · simpa [lines] using congrArg List.length same
  · intro i left right
    have line : p.lines[i]? = q.lines[i]? := by rw [same]
    simp only [lines, List.getElem?_map, List.getElem?_zipIdx, List.getElem?_eq_getElem left,
      List.getElem?_eq_getElem right, Option.map_some, Option.some.injEq, List.append_cancel_left_eq,
      List.cons.injEq, true_and] at line
    exact Instruction.listing_injective line

private theorem listing_injective : Function.Injective listing := by
  intro p q same
  have ended (p : Program) : ∀ line ∈ p.lines ++ [[]], '\n' ∉ line :=
    List.forall_mem_append.mpr
      ⟨p.newline_not_mem_lines, List.forall_mem_singleton.mpr List.not_mem_nil⟩
  rw [listing_eq, listing_eq] at same
  exact lines_injective (List.append_cancel_right (Text.eq_of_flatMap_cons (ended p) (ended q) same))

end Program

/-- The listing of a matcher tells its program, whatever numbers, sets and jumps are in it. -/
theorem listing_determines_program (m n : Matcher) : m.listing = n.listing ↔ m.program = n.program := by
  constructor
  · intro same
    exact Program.listing_injective (String.ofList_injective same)
  · intro same
    rw [Matcher.listing, same, Matcher.listing]

end SchemaRegex

import Mathlib.Logic.Function.Defs
import SchemaRegex.Text.Numeral

/-!
# Numerals without loss

Every character of a numeral is a digit of its base, and a number is the value of its numeral, with
leading zeros or without (`paddedNumeral_injective`). So a number can be told from a text in which it ends
at the first character that is no digit.
-/

namespace SchemaRegex.Text

variable {base width n : Nat} {c : Char}

theorem numeral_ne_nil (base n : Nat) : numeral base n ≠ [] := by
  rw [numeral]
  split
  · exact List.cons_ne_nil _ _
  · exact List.append_ne_nil_of_right_ne_nil _ (List.cons_ne_nil _ _)

theorem digit_of_mem_numeral (large : 2 ≤ base) (small : base ≤ 16) (member : c ∈ numeral base n) :
    (digitValue? base c).isSome := by
  have digit {d : Nat} (less : d < base) (same : c = Nat.digitChar d) : (digitValue? base c).isSome := by
    rw [same, digitValue?_digitChar small less]
    rfl
  fun_induction numeral base n with
  | case1 n one =>
    exact digit (one.resolve_left (Nat.not_lt.mpr large)) (List.mem_singleton.mp member)
  | case2 n more ih =>
    rcases List.mem_append.mp member with front | last
    · exact ih front
    · exact digit (Nat.mod_lt n (by omega)) (List.mem_singleton.mp last)

theorem digit_of_mem_paddedNumeral (large : 2 ≤ base) (small : base ≤ 16)
    (member : c ∈ paddedNumeral base width n) : (digitValue? base c).isSome := by
  rcases List.mem_append.mp member with zero | digit
  · rw [List.eq_of_mem_replicate zero]
    have none : 0 < base := by omega
    simp [digitValue?, none]
  · exact digit_of_mem_numeral large small digit

/-- Zeros in front make no difference. -/
theorem valueOf_zeros (base k : Nat) (digits : List Char) :
    valueOf base (List.replicate k '0' ++ digits) = valueOf base digits := by
  have zeros : valueOf base (List.replicate k '0') = 0 := by
    induction k with
    | zero => rfl
    | succ k ih =>
      rw [List.replicate_succ', valueOf_append, ih]
      cases base <;> simp [digitValue?]
  rw [valueOf, List.foldl_append, ← valueOf, zeros]
  rfl

theorem valueOf_paddedNumeral (large : 2 ≤ base) (small : base ≤ 16) (width n : Nat) :
    valueOf base (paddedNumeral base width n) = n := by
  rw [paddedNumeral, List.leftpad, valueOf_zeros, valueOf_numeral large small]

theorem paddedNumeral_injective (large : 2 ≤ base) (small : base ≤ 16) (width : Nat) :
    Function.Injective (paddedNumeral base width) := by
  intro n m same
  rw [← valueOf_paddedNumeral large small width n, same, valueOf_paddedNumeral large small]

/-- The digits of base ten are the decimal digits. -/
theorem isSome_digitValue?_ten_iff : (digitValue? 10 c).isSome ↔ '0' ≤ c ∧ c ≤ '9' := by
  constructor
  · intro digit
    apply Decidable.byContradiction
    intro other
    have large : ¬ (if 'a' ≤ c ∧ c ≤ 'f' then c.toNat - 'a'.toNat + 10
        else if 'A' ≤ c ∧ c ≤ 'F' then c.toNat - 'A'.toNat + 10 else 10) < 10 := by
      split
      · omega
      · split <;> omega
    simp only [digitValue?, if_neg other, if_neg large] at digit
    cases digit
  · intro digit
    have upper : c.toNat ≤ '9'.toNat := digit.2
    have small : c.toNat - '0'.toNat < 10 := by
      have nine : '9'.toNat = 57 := rfl
      have zero : '0'.toNat = 48 := rfl
      omega
    simp only [digitValue?, digit, and_self, if_true, small, Option.isSome_some]

end SchemaRegex.Text

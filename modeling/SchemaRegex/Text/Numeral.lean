/-!
# Numerals

Digits of a number in a base up to sixteen, most significant first, and the value of a digit text.
`valueOf_numeral` says that a numeral reads back.
-/

namespace SchemaRegex.Text

def numeral (base n : Nat) : List Char :=
  if base < 2 ∨ n < base then [Nat.digitChar n]
  else numeral base (n / base) ++ [Nat.digitChar (n % base)]
termination_by n
decreasing_by exact Nat.div_lt_self (by omega) (by omega)

def paddedNumeral (base width n : Nat) : List Char :=
  (numeral base n).leftpad width '0'

def decimal (n : Nat) : String := String.ofList (numeral 10 n)

def hexCodepoint (c : Nat) : List Char :=
  '0' :: 'x' :: paddedNumeral 16 2 c

def digitValue? (base : Nat) (c : Char) : Option Nat :=
  let value :=
    if '0' ≤ c ∧ c ≤ '9' then c.toNat - '0'.toNat
    else if 'a' ≤ c ∧ c ≤ 'f' then c.toNat - 'a'.toNat + 10
    else if 'A' ≤ c ∧ c ≤ 'F' then c.toNat - 'A'.toNat + 10
    else base
  if value < base then some value else none

def valueOf (base : Nat) (digits : List Char) : Nat :=
  digits.foldl (fun value c => value * base + (digitValue? base c).getD 0) 0

def maxWord : Nat := 0xFFFFFFFF

/-- Reads a number of at most 32 bits: digits, at least one, after at most one plus sign. -/
def readNumeral? (base : Nat) (text : List Char) : Option Nat :=
  let digits := match text with
    | '+' :: digits => digits
    | digits => digits
  if digits = [] ∨ !digits.all fun c => (digitValue? base c).isSome then none
  else
    let value := valueOf base digits
    if value ≤ maxWord then some value else none

theorem valueOf_append (base : Nat) (ds : List Char) (c : Char) :
    valueOf base (ds ++ [c]) = valueOf base ds * base + (digitValue? base c).getD 0 := by
  simp [valueOf]

theorem digitValue?_digitChar {base n : Nat} (small : base ≤ 16) (h : n < base) :
    digitValue? base (Nat.digitChar n) = some n := by
  have value : n < 16 := by omega
  have table : ∀ n < 16, ∀ base ≤ 16, n < base → digitValue? base (Nat.digitChar n) = some n := by
    decide
  exact table n value base small h

/-- The value of a numeral is the number it was written for. -/
theorem valueOf_numeral {base : Nat} (large : 2 ≤ base) (small : base ≤ 16) (n : Nat) :
    valueOf base (numeral base n) = n := by
  fun_induction numeral base n with
  | case1 n h =>
    have digit : n < base := by omega
    simp [valueOf, digitValue?_digitChar small digit]
  | case2 n h ih =>
    rw [valueOf_append, ih, digitValue?_digitChar small (Nat.mod_lt _ (by omega))]
    simpa [Nat.mul_comm] using Nat.div_add_mod n base

end SchemaRegex.Text

/-!
# Codepoints

Characters are handled by number. The Unicode codespace ends at `lastCodepoint`; two numbers beyond
it stand for the places before and after a subject, so that an anchor can be tested like a character.
-/

namespace SchemaRegex

def lastCodepoint : Nat := 0x10FFFF

/-- Stands before the first character of a subject; `^` matches it. -/
def startMark : Nat := lastCodepoint + 1

/-- Stands after the last character of a subject; `$` matches it. -/
def endMark : Nat := lastCodepoint + 2

def codepoints (text : String) : List Nat :=
  text.toList.map Char.toNat

theorem char_toNat_le_lastCodepoint (c : Char) : c.toNat ≤ lastCodepoint := by
  have valid : c.toNat < 0xd800 ∨ 0xdfff < c.toNat ∧ c.toNat < 0x110000 := c.valid
  simp only [lastCodepoint]
  omega

end SchemaRegex

import SchemaRegex.CodepointSet.Basic
import SchemaRegex.Unicode.Data.Extending
import SchemaRegex.Unicode.Data.Wide

/-!
# Columns

How many columns a character takes on a terminal: two for a wide one, none for one that is drawn
with a neighbour or not at all.
-/

namespace SchemaRegex.Unicode

def wideChars : CodepointSet := .ofRanges wideRanges

/-- The characters with the property Default_Ignorable_Code_Point, which are not drawn. -/
def ignorableRanges : List Range :=
  [⟨0x00AD, 0x00AD⟩, ⟨0x034F, 0x034F⟩, ⟨0x061C, 0x061C⟩, ⟨0x115F, 0x1160⟩, ⟨0x17B4, 0x17B5⟩,
    ⟨0x180B, 0x180F⟩, ⟨0x200B, 0x200F⟩, ⟨0x202A, 0x202E⟩, ⟨0x2060, 0x206F⟩, ⟨0x3164, 0x3164⟩,
    ⟨0xFE00, 0xFE0F⟩, ⟨0xFEFF, 0xFEFF⟩, ⟨0xFFA0, 0xFFA0⟩, ⟨0xFFF0, 0xFFF8⟩, ⟨0x1BCA0, 0x1BCA3⟩,
    ⟨0x1D173, 0x1D17A⟩, ⟨0xE0000, 0xE0FFF⟩]

def joiningJamoRanges : List Range :=
  [⟨0x1160, 0x11FF⟩, ⟨0xD7B0, 0xD7C6⟩, ⟨0xD7CB, 0xD7FB⟩]

/-- The characters that are drawn with the one behind them: letters that join its syllable, and the
number marks and abbreviation marks that span a word. -/
def prependedRanges : List Range :=
  [⟨0x0605, 0x0605⟩, ⟨0x070F, 0x070F⟩, ⟨0x0890, 0x0891⟩, ⟨0x08E2, 0x08E2⟩, ⟨0x0D4E, 0x0D4E⟩,
    ⟨0xA8FA, 0xA8FA⟩, ⟨0x111C2, 0x111C3⟩, ⟨0x113D1, 0x113D1⟩, ⟨0x1193F, 0x1193F⟩,
    ⟨0x11941, 0x11941⟩, ⟨0x11A84, 0x11A89⟩, ⟨0x11D46, 0x11D46⟩, ⟨0x11F02, 0x11F02⟩]

def hiddenChars : CodepointSet :=
  .ofRanges (extendingRanges ++ ignorableRanges ++ joiningJamoRanges ++ prependedRanges)

/-- The columns of a character; a control character has no width. The first four are exceptions: a
Tifinagh joiner is drawn where it joins nothing, a Korean filler and a Khmer vowel take the room of
two letters, and the Khmer sign for "and so on" that of three. -/
def columns? (c : Char) : Option Nat :=
  if c.toNat < 0x20 ∨ (0x7F ≤ c.toNat ∧ c.toNat ≤ 0x9F) then none
  else if c.toNat < 0x7F ∨ c.toNat = 0x2D7F then some 1
  else if c.toNat = 0x115F ∨ c.toNat = 0x17A4 then some 2
  else if c.toNat = 0x17D8 then some 3
  else if hiddenChars.contains c.toNat then some 0
  else if wideChars.contains c.toNat then some 2
  else some 1

def columns (control : Nat) : List Char → Nat
  | [] => 0
  | c :: cs => (columns? c).getD control + columns control cs

def fitting (room : Nat) : List Char → List Char
  | [] => []
  | c :: cs =>
    let width := (columns? c).getD 1
    if width ≤ room then c :: fitting (room - width) cs else []

end SchemaRegex.Unicode

import SchemaRegex.Unicode.Properties

/-!
# Escapes for sets of characters

The sets behind `\s`, `\i`, `\c`, `\d` and `\w`; the same letter in upper case stands for the
complement.
-/

namespace SchemaRegex.Unicode

def whitespace : CodepointSet := .ofRanges [⟨0x20, 0x20⟩, ⟨0x09, 0x0A⟩, ⟨0x0D, 0x0D⟩]

/-- The characters that an XML 1.1 name may start with. -/
def nameStart : CodepointSet :=
  .ofRanges [⟨0x3A, 0x3A⟩, ⟨0x41, 0x5A⟩, ⟨0x5F, 0x5F⟩, ⟨0x61, 0x7A⟩, ⟨0xC0, 0xD6⟩, ⟨0xD8, 0xF6⟩,
    ⟨0xF8, 0x2FF⟩, ⟨0x370, 0x37D⟩, ⟨0x37F, 0x1FFF⟩, ⟨0x200C, 0x200D⟩, ⟨0x2070, 0x218F⟩,
    ⟨0x2C00, 0x2FEF⟩, ⟨0x3001, 0xD7FF⟩, ⟨0xF900, 0xFDCF⟩, ⟨0xFDF0, 0xFFFD⟩, ⟨0x10000, 0xEFFFF⟩]

def nameChar : CodepointSet :=
  nameStart.union (.ofRanges [⟨0x2D, 0x2E⟩, ⟨0x30, 0x39⟩, ⟨0xB7, 0xB7⟩, ⟨0x300, 0x36F⟩,
    ⟨0x203F, 0x2040⟩])

def digit : CodepointSet := (category? "Nd").getD .empty

def wordChar : CodepointSet :=
  (CodepointSet.unionAll (["P", "Z", "C"].filterMap category?)).complement

def escape? : Char → Option CodepointSet
  | 's' => some whitespace
  | 'S' => some whitespace.complement
  | 'i' => some nameStart
  | 'I' => some nameStart.complement
  | 'c' => some nameChar
  | 'C' => some nameChar.complement
  | 'd' => some digit
  | 'D' => some digit.complement
  | 'w' => some wordChar
  | 'W' => some wordChar.complement
  | _ => none

end SchemaRegex.Unicode

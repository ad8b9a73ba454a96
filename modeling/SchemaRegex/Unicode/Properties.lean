import SchemaRegex.Unicode.Blocks
import SchemaRegex.Unicode.Data.Blocks
import SchemaRegex.Unicode.Data.Categories

/-!
# Categories and blocks by name

The tables of Unicode 14.0.0. The packed category table knows assigned codepoints only; the rest of
the codespace less the surrogates is added as unassigned.
-/

namespace SchemaRegex.Unicode

def surrogates : CodepointSet := .ofRanges [⟨0xD800, 0xDFFF⟩]

def assigned (table : NamedSets) : CodepointSet :=
  .unionAll (CategoryGroup.all.filterMap fun group => table.get? group.name)

def withUnassigned (table : NamedSets) : NamedSets :=
  let rest := (assigned table).complement.diff surrogates
  let table := match table.get? CategoryGroup.other.name with
    | none => table
    | some other => table.insert CategoryGroup.other.name (other.union rest)
  table.insert GeneralCategory.unassigned.name rest

/-- The table of a packed text, or no names at all if the text is damaged. -/
def categoryTable (packed : List Char) : NamedSets :=
  match decodeCategories packed with
  | .error _ => .empty
  | .ok table => withUnassigned table

def categories : NamedSets := categoryTable (packedCategories.flatMap String.toList)

def blocks : NamedSets :=
  decodeBlocks ⟨blockLengths.map Prod.fst, blockLengths.map Prod.snd⟩

def category? (name : String) : Option CodepointSet := categories.get? name

def block? (name : String) : Option CodepointSet := blocks.get? name

end SchemaRegex.Unicode

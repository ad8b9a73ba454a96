import SchemaRegex.Unicode.CategoryData

/-!
# The packed block table

Blocks are listed in order as names and lengths; a length without a name is a gap. A name may hold
older names of the block after bars. `encodeBlocks` makes the table from block data, with a line
`first..last; name` for each block, and `decodeBlocks` gives the set of each name.
-/

namespace SchemaRegex.Unicode

structure BlockTable where
  names : List (Option String)
  lengths : List Nat
deriving DecidableEq, Repr

/-- Blocks with the name that schemas written for Unicode 3.1 know them by. -/
def blockAliases : List (String × String) :=
  [("GreekandCoptic", "Greek"),
    ("CombiningDiacriticalMarksforSymbols", "CombiningMarksforSymbols"),
    ("PrivateUseArea", "PrivateUse"),
    ("SupplementaryPrivateUseArea-A", "PrivateUse"),
    ("SupplementaryPrivateUseArea-B", "PrivateUse")]

structure BlockLine where
  first : Nat
  last : Nat
  name : String
deriving DecidableEq, Repr

def BlockLine.read? (line : List Char) : Option BlockLine := do
  let (range, name) ← Text.splitOnce? [';'] line
  let (first, last) ← Text.splitOnce? ['.', '.'] range
  let first ← readCodepoint? first
  let last ← readCodepoint? last
  return ⟨first, last, String.ofList (Text.stripBlanks name)⟩

def packedName (name : String) : String :=
  match blockAliases.lookup name with
  | some other => name ++ "|" ++ other
  | none => name

/-- Packs trimmed lines of block data, the first of which may not start before `next`. Each line
has to start behind the one before it and end no earlier than it starts. -/
def encodeBlockLines (next : Nat) : List (List Char) → Except TableError BlockTable
  | [] => .ok ⟨[], []⟩
  | line :: rest =>
    match BlockLine.read? line with
    | none => .error (.malformedLine (String.ofList line))
    | some block =>
      if block.first < next ∨ block.last < block.first then
        .error (.malformedLine (String.ofList line))
      else
        (encodeBlockLines (block.last + 1) rest).map fun packed =>
          let names := some (packedName block.name) :: packed.names
          let lengths := (block.last - block.first + 1) :: packed.lengths
          if block.first = next then ⟨names, lengths⟩
          else ⟨none :: names, (block.first - next) :: lengths⟩

def encodeBlocks (data : List Char) : Except TableError BlockTable :=
  encodeBlockLines 0 (((Text.lines data).map Text.trim).filter fun line =>
    line ≠ [] ∧ line.head? ≠ some '#')

def namesOf (packed : String) : List String :=
  (Text.splitAll '|' packed.toList).map String.ofList

def addBlocks (table : NamedSets) (first : Nat) : List (Option String × Nat) → NamedSets
  | [] => table
  | (name, length) :: rest =>
    let table := match name with
      | none => table
      | some name =>
        let set := CodepointSet.ofRanges (if length = 0 then [] else [⟨first, first + length - 1⟩])
        (namesOf name).foldl (·.extend · set) table
    addBlocks table (first + length) rest

def decodeBlocks (packed : BlockTable) : NamedSets :=
  addBlocks .empty 0 (packed.names.zip packed.lengths)

end SchemaRegex.Unicode

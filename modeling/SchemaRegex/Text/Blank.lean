/-!
# Blanks and lines

The characters with the Unicode property White_Space, trimming, and the lines of a text, which end
with a line feed that a carriage return may precede.
-/

namespace SchemaRegex.Text

def isBlank (c : Char) : Bool :=
  let n := c.toNat
  (0x09 ≤ n && n ≤ 0x0D) || n == 0x20 || n == 0x85 || n == 0xA0 || n == 0x1680
    || (0x2000 ≤ n && n ≤ 0x200A) || n == 0x2028 || n == 0x2029 || n == 0x202F || n == 0x205F
    || n == 0x3000

def trim (text : List Char) : List Char :=
  ((text.dropWhile isBlank).reverse.dropWhile isBlank).reverse

def stripBlanks (text : List Char) : List Char :=
  text.filter fun c => !isBlank c

def splitAll (separator : Char) (text : List Char) : List (List Char) :=
  let (part, parts) := text.foldr (fun c (part, parts) =>
    if c = separator then ([], part :: parts) else (c :: part, parts)) ([], [])
  part :: parts

def splitOnce? (mark : List Char) : List Char → Option (List Char × List Char)
  | [] => if mark = [] then some ([], []) else none
  | c :: cs =>
    if mark.isPrefixOf (c :: cs) then some ([], (c :: cs).drop mark.length)
    else (splitOnce? mark cs).map fun (before, after) => (c :: before, after)

def dropReturn (line : List Char) : List Char :=
  if line.getLast? = some '\r' then line.dropLast else line

/-- The lines of a text. A line feed ends a line, so the empty part after the last one is no line;
a carriage return stays in a last line that has no line feed. -/
def lines (text : List Char) : List (List Char) :=
  let parts := splitAll '\n' text
  let last := parts.getLast?.getD []
  parts.dropLast.map dropReturn ++ if last = [] then [] else [last]

end SchemaRegex.Text

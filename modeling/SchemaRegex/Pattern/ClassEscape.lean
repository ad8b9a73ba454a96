import SchemaRegex.Pattern.Characters
import SchemaRegex.Unicode.Escape

/-!
# Escapes for classes

A class escape stands for a set of characters: `\d`, or `\p{Lu}` and `\p{IsThai}` with the name of
a category or a block, or `\P` for the complement.
-/

namespace SchemaRegex.Pattern

open Reader

def escapeLetters : List Char := ['s', 'S', 'i', 'I', 'c', 'C', 'd', 'D', 'w', 'W']

def letterEscape : Reader CodepointSet :=
  ((token "\\").skipThen (oneOf escapeLetters)).map fun c => (Unicode.escape? c).getD .empty

def nameChar : Reader Char :=
  anyChar.satisfying (fun c => c.isAlphanum || c == '-') ["block identifier"]

def required (missing : Violation) : Option CodepointSet → Except Violation CodepointSet
  | some set => .ok set
  | none => .error missing

def categoryNamed (name : List Char) : Except Violation CodepointSet :=
  required (.unknownCategory (String.ofList name)) (Unicode.category? (String.ofList name))

def blockNamed (d : Dialect) (name : List Char) : Except Violation CodepointSet :=
  let otherwise := if d.unknownBlocksMatchEverything then some .full else none
  required (.unknownBlock (String.ofList name)) ((Unicode.block? (String.ofList name)).or otherwise)

def categoryOf (s : Settings) (group : String) (letters : List Char) : Reader CodepointSet :=
  resolve s.commits (consumed ((token group).pair (opt (oneOf letters)))) categoryNamed

def category (s : Settings) : Reader CodepointSet :=
  firstOf (categoryOf s "L" ['u', 'l', 't', 'm', 'o'])
    [categoryOf s "M" ['n', 'c', 'e'],
      categoryOf s "N" ['d', 'l', 'o'],
      categoryOf s "P" ['c', 'd', 's', 'e', 'i', 'f', 'o'],
      categoryOf s "Z" ['s', 'l', 'p'],
      categoryOf s "S" ['m', 'c', 'k', 'o'],
      categoryOf s "C" ['c', 'f', 'o', 'n']]

def block (s : Settings) : Reader CodepointSet :=
  resolve s.commits ((token "Is").skipThen (consumed (many1 nameChar))) (blockNamed s.dialect)

/-- What stands between the braces. A name of any other form counts as that of a category. -/
def property (s : Settings) : Reader CodepointSet :=
  firstOf ((category s).thenSkip (peek (token "\x7d")))
    [block s,
      resolve s.commits ((consumed (many1 nameChar)).thenSkip (peek (token "\x7d"))) fun name =>
        .error (.unknownCategory (String.ofList name))]

def classEscape (s : Settings) : Reader CodepointSet :=
  firstOf letterEscape
    [delimited s.commits "\\p\x7b" (property s) "\x7d",
      (delimited s.commits "\\P\x7b" (property s) "\x7d").map CodepointSet.complement]

end SchemaRegex.Pattern

import SchemaRegex.Text.Blank

/-!
# The source of a report

The lines of a text and the places in it. A place is the number of bytes before it in UTF-8.
-/

namespace SchemaRegex.Report

def byteLength : List Char → Nat
  | [] => 0
  | c :: cs => c.utf8Size + byteLength cs

def takeBytes (bytes : Nat) : List Char → List Char
  | [] => []
  | c :: cs => if c.utf8Size ≤ bytes then c :: takeBytes (bytes - c.utf8Size) cs else []

structure Span where
  start : Nat
  stop : Nat
deriving DecidableEq, Repr

structure Line where
  number : Nat
  text : List Char
  start : Nat
  ending : Nat
deriving DecidableEq, Repr

namespace Line

def before (l : Line) (place : Nat) : List Char := takeBytes (place - l.start) l.text

def indentation? (l : Line) : Option Nat :=
  if l.text.all Text.isBlank then none else some (l.text.takeWhile Text.isBlank).length

end Line

/-- Numbers the parts of a text between line feeds. A carriage return before a line feed belongs to
the line end. What follows the last line feed is a line if there is anything. -/
def numberLines (number start : Nat) : List (List Char) → List Line
  | [] => []
  | [last] => if last = [] then [] else [⟨number, last, start, 0⟩]
  | part :: parts =>
    let text := Text.dropReturn part
    ⟨number, text, start, byteLength part - byteLength text + 1⟩
      :: numberLines (number + 1) (start + byteLength part + 1) parts

def partsUpTo (place start : Nat) : List (List Char) → List (List Char)
  | [] => []
  | part :: parts =>
    let next := start + byteLength part + 1
    part :: if place < next then [] else partsUpTo place next parts

def linesReached (span : Span) (number start : Nat) : List (List Char) → List Line
  | [] => []
  | part :: parts =>
    let next := start + byteLength part + 1
    if next ≤ span.start then linesReached span (number + 1) next parts
    else numberLines number start (partsUpTo span.stop start (part :: parts))

/-- The lines of a text that a span reaches. The line feed behind them is left out, so that a
carriage return before it stays in the line; an empty last line is no line. -/
def excerpt (text : List Char) (span : Span) : List Line :=
  linesReached span 1 0 (Text.splitAll '\n' text)

end SchemaRegex.Report

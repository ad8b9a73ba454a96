/-!
# The window of a long line

A terminal has room for so many columns. A line that is longer is cut on the left, on the right or
on both sides, so that the annotation is seen, and its label too if possible. Deep indentation is
always cut, and a line of blanks is cut whole.
-/

namespace SchemaRegex.Report

/-- What has to be seen, in columns: where the text starts, if it is not blank, where the annotation
starts and stops, where its label stops, and the length of the longest line. -/
structure Extent where
  indentation : Option Nat
  spanLeft : Nat
  spanRight : Nat
  labelRight : Nat
  longest : Nat

structure Window where
  left : Nat
  right : Nat
  room : Nat
  padded : Bool

namespace Window

def margin : Nat := 6

def fitFrom (indentation room : Nat) (e : Extent) : Window :=
  let indent := indentation - margin
  let spanLeft := e.spanLeft - margin
  let spanRight := e.spanRight + margin
  let labelRight := e.labelRight + margin
  let left := if 20 < indent then indent - 16 else 0
  let right := max e.longest left
  let (left, right) :=
    if right - left ≤ room then (left, right)
    else if indent ≤ labelRight ∧ labelRight - indent ≤ room then (indent, indent + room)
    else if labelRight - spanLeft ≤ room then
      let left := spanLeft - (room - (labelRight - spanLeft)) / 2
      (left, left + room)
    else if spanRight - spanLeft ≤ room then
      let left := spanLeft - (room - (spanRight - spanLeft)) / 5 * 2
      (left, left + room)
    else (spanLeft, spanRight)
  ⟨left, right, room, right = spanRight ∨ right = labelRight⟩

def fit (room : Nat) (e : Extent) : Window :=
  match e.indentation with
  | none => ⟨e.longest + 1, e.longest + 1, room, false⟩
  | some indentation => fitFrom indentation room e

def first (w : Window) (length : Nat) : Nat := min w.left length

def last (w : Window) (length : Nat) : Nat :=
  if length - w.left ≤ w.room then length else min length w.right

def cutsLeft (w : Window) : Bool := 0 < w.left

def cutsRight (w : Window) (length : Nat) : Bool :=
  let right := if w.padded then w.right - margin else w.right
  right < length && w.left + w.room < length

end Window

end SchemaRegex.Report

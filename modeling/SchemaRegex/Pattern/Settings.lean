import SchemaRegex.Pattern.Dialect
import SchemaRegex.Pattern.Reader

/-!
# Settings of the grammar

A pattern is read in a dialect, with a limit for brackets inside brackets. Groups and class
expressions count alike.
-/

namespace SchemaRegex.Pattern

structure Settings where
  dialect : Dialect := .xsd
  nestLimit : Nat := 100
  /-- Points of no return are kept. Readers that do not commit find the same trees, but explain
  less well why there is none. -/
  commits : Bool := true

namespace Reader

variable {α : Type}

/-- Reads a bracketed value. Without a reader for what is inside, the limit is reached, and the
opening bracket is one too many. -/
def enclosed (s : Settings) (opening : String) (inner : Option (Reader α)) (closing : String) :
    Reader α :=
  match inner with
  | some p => delimited s.commits opening p closing
  | none => resolve s.commits (token opening) fun _ => .error (.nestingTooDeep s.nestLimit)

end Reader

end SchemaRegex.Pattern

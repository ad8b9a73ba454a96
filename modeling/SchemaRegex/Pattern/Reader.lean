import SchemaRegex.Pattern.Failure

/-!
# Readers

A reader takes a value from the start of a text. When it cannot, it either rejects the text, and
another reader may be tried, or aborts, and nothing else is tried. A reader aborts behind a point of
no return (`cut`) and where a rule is broken (`resolve`). Both follow a flag `commits`; without it
they reject, which changes error messages but should not change what is read.

The trail of an attempt holds the failures of readers marked by `recorded`, in the order in which
they came up, whether or not reading went on behind them.
-/

namespace SchemaRegex.Pattern

inductive Outcome (α : Type) where
  | accepted (value : α) (rest : Unread)
  | rejected (f : Failure)
  | aborted (f : Failure)
deriving DecidableEq

def Outcome.fail {α : Type} (commits : Bool) (f : Failure) : Outcome α :=
  if commits then .aborted f else .rejected f

structure Attempt (α : Type) where
  outcome : Outcome α
  trail : List Failure

abbrev Reader (α : Type) := Unread → Attempt α

namespace Reader

variable {α β γ : Type}

def accept (value : α) : Reader α := fun rest => ⟨.accepted value rest, []⟩

def reject (tokens : List String) : Reader α := fun input => ⟨.rejected ⟨input, .expected tokens⟩, []⟩

def andThen (p : Reader α) (next : α → Reader β) : Reader β := fun input =>
  let first := p input
  match first.outcome with
  | .accepted value rest =>
    let second := next value rest
    ⟨second.outcome, first.trail ++ second.trail⟩
  | .rejected f => ⟨.rejected f, first.trail⟩
  | .aborted f => ⟨.aborted f, first.trail⟩

def map (f : α → β) (p : Reader α) : Reader β := p.andThen fun value => accept (f value)

def as (value : β) (p : Reader α) : Reader β := p.map fun _ => value

def pair (p : Reader α) (q : Reader β) : Reader (α × β) :=
  p.andThen fun a => q.map fun b => (a, b)

def skipThen (p : Reader α) (q : Reader β) : Reader β := p.andThen fun _ => q

def thenSkip (p : Reader α) (q : Reader β) : Reader α := p.andThen fun a => q.map fun _ => a

def orElse (p q : Reader α) : Reader α := fun input =>
  let first := p input
  match first.outcome with
  | .rejected f =>
    let second := q input
    match second.outcome with
    | .rejected g => ⟨.rejected (f.merge g), first.trail ++ second.trail⟩
    | outcome => ⟨outcome, first.trail ++ second.trail⟩
  | outcome => ⟨outcome, first.trail⟩

def firstOf (p : Reader α) (others : List (Reader α)) : Reader α := others.foldl orElse p

def opt (p : Reader α) : Reader (Option α) := fun input =>
  let first := p input
  match first.outcome with
  | .accepted value rest => ⟨.accepted (some value) rest, first.trail⟩
  | .rejected _ => ⟨.accepted none input, first.trail⟩
  | .aborted f => ⟨.aborted f, first.trail⟩

/-- Reads values until there are no more. A value that takes up no text is rejected, since reading
would never end. -/
def many (p : Reader α) (input : Unread) : Attempt (List α) :=
  let first := p input
  match first.outcome with
  | .accepted value rest =>
    if rest.size < input.size then
      let others := many p rest
      match others.outcome with
      | .accepted values rest => ⟨.accepted (value :: values) rest, first.trail ++ others.trail⟩
      | .rejected f => ⟨.rejected f, first.trail ++ others.trail⟩
      | .aborted f => ⟨.aborted f, first.trail ++ others.trail⟩
    else ⟨.rejected ⟨input, .expected []⟩, first.trail⟩
  | .rejected _ => ⟨.accepted [] input, first.trail⟩
  | .aborted f => ⟨.aborted f, first.trail⟩
termination_by input.size

def many1 (p : Reader α) : Reader (List α) :=
  p.andThen fun value => map (fun values => value :: values) (many p)

def peek (p : Reader α) : Reader α := fun input =>
  let first := p input
  match first.outcome with
  | .accepted value _ => ⟨.accepted value input, first.trail⟩
  | outcome => ⟨outcome, first.trail⟩

def notAhead (p : Reader α) (tokens : List String) : Reader Unit := fun input =>
  let first := p input
  match first.outcome with
  | .accepted _ _ => ⟨.rejected ⟨input, .expected tokens⟩, first.trail⟩
  | .rejected _ => ⟨.accepted () input, first.trail⟩
  | .aborted f => ⟨.aborted f, first.trail⟩

def consumed (p : Reader α) : Reader (List Char) := fun input =>
  let first := p input
  match first.outcome with
  | .accepted _ rest => ⟨.accepted (input.chars.take (input.size - rest.size)) rest, first.trail⟩
  | .rejected f => ⟨.rejected f, first.trail⟩
  | .aborted f => ⟨.aborted f, first.trail⟩

/-- Accepts only values that pass a test. Unless the text is wrong further on, a rejection tells what
the test asks for. -/
def satisfying (p : Reader α) (test : α → Bool) (tokens : List String) : Reader α := fun input =>
  let first := p input
  let refused : Failure := ⟨input, .expected tokens⟩
  match first.outcome with
  | .accepted value rest =>
    if test value then ⟨.accepted value rest, first.trail⟩ else ⟨.rejected refused, first.trail⟩
  | .rejected f =>
    if f.rest.size = input.size then ⟨.rejected refused, first.trail⟩
    else ⟨.rejected f, first.trail⟩
  | .aborted f => ⟨.aborted f, first.trail⟩

def guarded (enabled : Bool) (p : Reader α) : Reader α := if enabled then p else reject []

def cut (commits : Bool) (p : Reader α) : Reader α := fun input =>
  let first := p input
  match first.outcome with
  | .rejected f => ⟨Outcome.fail commits f, first.trail⟩
  | outcome => ⟨outcome, first.trail⟩

def resolve (commits : Bool) (p : Reader α) (f : α → Except Violation β) : Reader β := fun input =>
  let first := p input
  match first.outcome with
  | .accepted value rest =>
    match f value with
    | .ok value => ⟨.accepted value rest, first.trail⟩
    | .error v => ⟨Outcome.fail commits ⟨input, .violation v⟩, first.trail⟩
  | .rejected f => ⟨.rejected f, first.trail⟩
  | .aborted f => ⟨.aborted f, first.trail⟩

def recorded (p : Reader α) : Reader α := fun input =>
  let first := p input
  match first.outcome with
  | .rejected f => ⟨.rejected f, first.trail ++ [f]⟩
  | outcome => ⟨outcome, first.trail⟩

def token (text : String) : Reader Unit := fun input =>
  if text.toList.isPrefixOf input.chars then accept () (input.drop text.length)
  else reject [text] input

def anyChar : Reader Char := fun input =>
  match input.chars with
  | [] => reject ["any character"] input
  | c :: _ => accept c (input.drop 1)

def oneOf (chars : List Char) : Reader Char := fun input =>
  match input.chars with
  | [] => reject (chars.map Char.toString) input
  | c :: _ =>
    if c ∈ chars then accept c (input.drop 1) else reject (chars.map Char.toString) input

def atEnd : Reader Unit := fun input =>
  match input.chars with
  | [] => accept () input
  | _ => reject ["end of input"] input

def delimited (commits : Bool) (opening : String) (p : Reader α) (closing : String) : Reader α :=
  (token opening).skipThen (cut commits (p.thenSkip (token closing)))

end Reader

end SchemaRegex.Pattern

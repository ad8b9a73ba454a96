import SchemaRegex.Pattern.Unread
import SchemaRegex.Text.Numeral

/-!
# Why a text cannot be read

A failure is the text that was left when reading stopped, and the cause. The less text is left, the
deeper the failure. Of two failures the deeper one counts, and at the same depth the tokens that
were expected are put together.
-/

namespace SchemaRegex.Pattern

inductive Violation where
  | quantifierOrder
  | quantifierTooLarge
  | rangeOrder
  | hyphenEndpoint
  | backreference
  | nestingTooDeep (limit : Nat)
  | unknownCategory (name : String)
  | unknownBlock (name : String)
deriving DecidableEq, Repr

namespace Violation

def message : Violation → String
  | quantifierOrder => "quantifier range is in the wrong order"
  | quantifierTooLarge =>
    "quantifier bound is too large (max: " ++ Text.decimal Text.maxWord ++ ")"
  | rangeOrder => "character range is in the wrong order"
  | hyphenEndpoint => "unescaped hyphen may not be used as a range endpoint"
  | backreference => "backreferences are not supported"
  | nestingTooDeep limit =>
    "pattern is nested too deeply (max: " ++ Text.decimal limit ++ " levels)"
  | unknownCategory name => "unknown Unicode category `" ++ name ++ "`"
  | unknownBlock name => "unknown Unicode block `" ++ name ++ "`"

def isUnicode : Violation → Bool
  | unknownCategory _ | unknownBlock _ => true
  | _ => false

end Violation

inductive Cause where
  | expected (tokens : List String)
  | violation (v : Violation)
deriving DecidableEq, Repr

structure Failure where
  rest : Unread
  cause : Cause
deriving DecidableEq, Repr

namespace Failure

def Deeper (f g : Failure) : Prop := f.rest.size < g.rest.size

instance (f g : Failure) : Decidable (f.Deeper g) :=
  inferInstanceAs (Decidable (f.rest.size < g.rest.size))

/-- The deeper of two failures of the same text, or both in one. -/
def merge (f g : Failure) : Failure :=
  if g.Deeper f then g
  else if f.Deeper g then f
  else match f.cause, g.cause with
    | .expected xs, .expected ys => ⟨f.rest, .expected (xs ++ ys)⟩
    | _, _ => f

def deepest? (fs : List Failure) : Option Failure :=
  fs.foldl (fun best f =>
    match best with
    | none => some f
    | some b => if f.Deeper b then some f else some b) none

end Failure

end SchemaRegex.Pattern

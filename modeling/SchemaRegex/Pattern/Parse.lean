import SchemaRegex.Pattern.Grammar

/-!
# Reading a pattern

`Pattern.parse` gives the tree of a pattern, or says where it is wrong and why.
-/

namespace SchemaRegex

inductive PatternError.Cause where
  | unexpected (expected : List String) (found : Option Char)
  | violation (v : Pattern.Violation)
deriving DecidableEq, Repr

/-- A pattern that cannot be read, the number of characters before the place where it is wrong, and
why. -/
structure PatternError where
  pattern : String
  offset : Nat
  cause : PatternError.Cause
deriving DecidableEq, Repr

namespace PatternError

def code (e : PatternError) : String :=
  match e.cause with
  | .unexpected _ _ => "E001"
  | .violation v => if v.isUnicode then "E003" else "E002"

def quote (text : String) : String := "\"" ++ text ++ "\""

def expectation : List String → String
  | [] => "nothing"
  | [token] => quote token
  | tokens => "one of " ++ ", ".intercalate (tokens.map quote)

def finding : Option Char → String
  | some c => quote c.toString
  | none => "end of input"

def message (e : PatternError) : String :=
  let place := "error parsing pattern " ++ quote e.pattern ++ " at offset "
    ++ Text.decimal e.offset ++ ": "
  match e.cause with
  | .unexpected expected found =>
    place ++ "expected " ++ expectation expected ++ " but found " ++ finding found
  | .violation v => place ++ v.message

def ofFailure (pattern : String) (f : Pattern.Failure) : PatternError where
  pattern
  offset := pattern.length - f.rest.size
  cause := match f.cause with
    | .expected tokens => .unexpected tokens.eraseDups f.rest.chars.head?
    | .violation v => .violation v

end PatternError

namespace Pattern

def parse (s : Settings) (text : String) : Except PatternError Regex :=
  match pattern s (.ofList text.toList) with
  | .accepted r _ => .ok r
  | .rejected f | .aborted f => .error (.ofFailure text f)

end Pattern

end SchemaRegex

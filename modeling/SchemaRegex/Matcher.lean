import SchemaRegex.Machine.Run
import SchemaRegex.Pattern.Parse
import SchemaRegex.Program.Compile
import SchemaRegex.Program.Listing
import SchemaRegex.Text.Quoted
import SchemaRegex.Text.Utf16

/-!
# Matchers

A matcher is a pattern with its program. It tells whether a subject matches: all of it for a schema
pattern, some part of it for an XPath pattern.
-/

namespace SchemaRegex

structure Matcher where
  pattern : String
  dialect : Dialect
  program : Program

inductive CompileError where
  | pattern (e : PatternError)
  | program (text : String) (limit : Nat) (e : AssemblyError)
deriving DecidableEq

def defaultLimit : Nat := 4194304

namespace CompileError

def code : CompileError → String
  | pattern e => e.code
  | program _ _ _ => "E100"

def message : CompileError → String
  | pattern e => e.message
  | program text limit .tooLarge =>
    "pattern " ++ PatternError.quote text ++ " is too large (max: " ++ Text.decimal limit
      ++ " instructions)"
  | program _ _ (.noJumpAt location) => "no jump at location " ++ String.ofList (locationText location)

end CompileError

namespace Matcher

def compile (pattern : String) (d : Dialect) (limit : Nat) : Except CompileError Matcher :=
  match Pattern.parse { dialect := d } pattern with
  | .error e => .error (.pattern e)
  | .ok r =>
    match r.compile d limit with
    | .error e => .error (.program pattern limit e)
    | .ok program => .ok ⟨pattern, d, program⟩

def input (m : Matcher) (subject : List Nat) : List Nat :=
  match m.dialect with
  | .xsd => subject
  | .xpath => startMark :: subject ++ [endMark]

def matchesCodepoints (m : Matcher) (subject : List Nat) : Bool :=
  ((Machine.ofSize m.program.size).accepts m.program (m.input subject)).1

def matchesText (m : Matcher) (subject : String) : Bool := m.matchesCodepoints (codepoints subject)

def matchesUtf16 (m : Matcher) (units : List Nat) : Bool :=
  m.matchesCodepoints (Text.ofUtf16 units)

def listing (m : Matcher) : String := String.ofList (Program.listing m.program)

def description (m : Matcher) : String :=
  "Matcher \x7b pattern: " ++ Text.quoted m.pattern ++ ", language: " ++ m.dialect.name ++ " \x7d"

end Matcher

end SchemaRegex

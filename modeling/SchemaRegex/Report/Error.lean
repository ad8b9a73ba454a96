import SchemaRegex.Matcher
import SchemaRegex.Report.Snippet

/-!
# Reports of errors

An error in a pattern is shown in the pattern. A program that is too large has no place to show.
-/

namespace SchemaRegex

namespace PatternError

def title (e : PatternError) : String :=
  match e.cause with
  | .unexpected _ _ => "syntax error"
  | .violation v => if v.isUnicode then "unknown Unicode construct" else "invalid pattern"

def label (e : PatternError) : String :=
  match e.cause with
  | .unexpected expected _ => "expected " ++ expectation expected
  | .violation v => v.message

def span (e : PatternError) : Report.Span :=
  let start := Report.byteLength (e.pattern.toList.take e.offset)
  match e.cause with
  | .unexpected _ (some c) => ⟨start, start + c.utf8Size⟩
  | _ => ⟨start, start⟩

def report (e : PatternError) (colors : Bool) : String :=
  let snippet : Report.Snippet :=
    { code := e.code
      title := e.title
      origin := "pattern"
      source := e.pattern.toList.map fun c => if c = '\t' then ' ' else c
      span := e.span
      label := e.label }
  snippet.text colors

end PatternError

def CompileError.report (e : CompileError) (colors : Bool) : String :=
  match e with
  | .pattern e => e.report colors
  | .program _ _ _ => "error[" ++ e.code ++ "]: " ++ e.message

end SchemaRegex

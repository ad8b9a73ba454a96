import SchemaRegex.Pattern.Settings

/-!
# Single characters

A character that stands for itself, and one behind a backslash, outside and inside class
expressions.
-/

namespace SchemaRegex.Pattern

open Reader

def normalChar (d : Dialect) : Reader Char :=
  anyChar.satisfying (fun c => c ∉ d.metacharacters) ["normal character"]

def escapedChar (d : Dialect) : Reader Char :=
  (token "\\").skipThen (firstOf ((token "n").as '\n')
    [(token "r").as '\r', (token "t").as '\t', oneOf d.escapable])

def unescapedChar : Reader Char :=
  anyChar.satisfying (fun c => c ∉ ['\\', '[', ']']) ["unescaped character"]

def classChar (d : Dialect) : Reader Char := (escapedChar d).orElse unescapedChar

def digit : Reader Char := anyChar.satisfying (fun c => '0' ≤ c ∧ c ≤ '9') ["digit"]

end SchemaRegex.Pattern

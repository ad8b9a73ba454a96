import SchemaRegex.Text.Numeral

/-!
# Quoted text

A text in quotation marks, with escapes for quotation marks, backslashes and control characters.
-/

namespace SchemaRegex.Text

def isControl (c : Char) : Bool :=
  c.toNat < 0x20 || (0x7F ≤ c.toNat && c.toNat ≤ 0x9F)

def escaped (c : Char) : List Char :=
  match c with
  | '"' => ['\\', '"']
  | '\\' => ['\\', '\\']
  | '\t' => ['\\', 't']
  | '\n' => ['\\', 'n']
  | '\r' => ['\\', 'r']
  | '\x00' => ['\\', '0']
  | c =>
    if isControl c then "\\u\x7b".toList ++ numeral 16 c.toNat ++ "\x7d".toList else [c]

def quoted (text : String) : String :=
  String.ofList ('"' :: text.toList.flatMap escaped ++ ['"'])

end SchemaRegex.Text

/-!
# Control sequences

A terminal takes an escape character and what belongs to it as a command, and shows neither. A text
for a place that obeys no commands is written without control sequences and control characters.
Only tabs, line feeds, form feeds and carriage returns stay, and one of these inside a sequence lets
the text go on: what follows is shown up to the next control character, where the sequence is
taken up again.
-/

namespace SchemaRegex.Text

inductive ControlState where
  | outside
  | escape
  | escapeIntermediate
  | control
  | deviceEntry
  | deviceParameters
  | deviceIntermediate
  | controlString
  | systemCommand
deriving DecidableEq, Repr

def isCommand (c : Char) : Bool :=
  (c.toNat < 0x20 && !(['\t', '\n', '\x0c', '\x0d'].contains c)) || c.toNat == 0x7F

/-- One of the bytes of a character is the string terminator. -/
def holdsTerminator (c : Char) : Bool := (String.utf8EncodeChar c).contains 0x9C

namespace ControlState

def afterPrintable (c : Char) : ControlState → ControlState
  | outside => outside
  | escape =>
    if c < '0' then escapeIntermediate
    else if c = '[' then control
    else if c = ']' then systemCommand
    else if c = 'P' then deviceEntry
    else if ['X', '^', '_'].contains c then controlString
    else outside
  | escapeIntermediate => if c < '0' then escapeIntermediate else outside
  | control => if c < '@' then control else outside
  | deviceEntry =>
    if c < '0' then deviceIntermediate else if c < '@' then deviceParameters else controlString
  | deviceParameters =>
    if c < '0' then deviceIntermediate else if c < '<' then deviceParameters else controlString
  | deviceIntermediate => if c < '0' then deviceIntermediate else controlString
  | controlString => controlString
  | systemCommand => systemCommand

def next (s : ControlState) (c : Char) : ControlState :=
  if c = '\x1b' then escape
  else if c = '\x18' ∨ c = '\x1a' then outside
  else if c = '\x07' ∧ s = systemCommand then outside
  else if c.toNat < 0x20 ∨ c.toNat = 0x7F then s
  else if c.toNat < 0x7F then s.afterPrintable c
  else if s = controlString ∧ holdsTerminator c then outside
  else s

def shows (s : ControlState) (c : Char) : Bool :=
  match s with
  | outside => !isCommand c
  | escape | escapeIntermediate | control => c.toNat < 0x20 && !isCommand c
  | _ => false

end ControlState

/-- The characters of a text that are shown. When the text goes on inside a sequence, the state is
that of the sequence, and a character beyond ASCII ends it. -/
def shownFrom (goesOn : Bool) (s : ControlState) : List Char → List Char
  | [] => []
  | c :: cs =>
    if goesOn then
      if isCommand c then shownFrom false (s.next c) cs
      else c :: shownFrom true (if c.toNat < 0x80 then s else .outside) cs
    else if s.shows c then c :: shownFrom (s ≠ .outside) s cs
    else shownFrom false (s.next c) cs

def withoutControls (text : String) : String :=
  String.ofList (shownFrom false .outside text.toList)

end SchemaRegex.Text

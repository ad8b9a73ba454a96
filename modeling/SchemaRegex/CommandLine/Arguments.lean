import SchemaRegex.CommandLine.Command
import SchemaRegex.Text.Blank

/-!
# Reading arguments

A command takes options and values in any order. An option starts with a hyphen; behind `--` all
arguments are values. Short options may be put together, as in `-xh`.
-/

namespace SchemaRegex.CommandLine

inductive Argument where
  | separator
  | long (name : String) (value : Option String)
  | short (letters : List Char)
  | value (text : String)
deriving DecidableEq, Repr

/-- Tells options and values apart. A hyphen alone is a value. -/
def Argument.ofString (text : String) : Argument :=
  match text.toList with
  | ['-', '-'] => .separator
  | '-' :: '-' :: option =>
    match Text.splitOnce? ['='] option with
    | some (name, given) => .long (String.ofList name) (some (String.ofList given))
    | none => .long (String.ofList option) none
  | ['-'] => .value text
  | '-' :: letters => .short letters
  | _ => .value text

structure Given where
  xpath : Bool
  values : List String
deriving DecidableEq, Repr

namespace Given

def nothing : Given := ⟨false, []⟩

def withXPath (g : Given) : Except UsageError Given :=
  if g.xpath then .error (.repeated "--xpath") else .ok { g with xpath := true }

def withValue (g : Given) (limit : Option Nat) (text : String) : Except UsageError Given :=
  match limit with
  | none => .ok { g with values := text :: g.values }
  | some limit =>
    if g.values.length < limit then .ok { g with values := text :: g.values }
    else .error (.unexpected text)

def withValues (limit : Option Nat) : List String → Given → Except UsageError Given
  | [], g => .ok g
  | text :: texts, g => do withValues limit texts (← g.withValue limit text)

def withLetters : List Char → Given → Except UsageError (Option Given)
  | [], g => .ok (some g)
  | 'x' :: letters, g => do withLetters letters (← g.withXPath)
  | 'h' :: _, _ => .ok none
  | letter :: _, _ => .error (.unexpected ("-" ++ letter.toString))

def read (limit : Option Nat) : List String → Given → Except UsageError (Option Given)
  | [], g => .ok (some g)
  | text :: texts, g =>
    match Argument.ofString text with
    | .separator => (withValues limit texts g).map some
    | .value text => do read limit texts (← g.withValue limit text)
    | .short letters => do
      match ← withLetters letters g with
      | none => return none
      | some g => read limit texts g
    | .long name value =>
      match name, value with
      | "xpath", none => do read limit texts (← g.withXPath)
      | "help", none => .ok none
      | name, some value =>
        if name = "xpath" ∨ name = "help" then .error (.unexpectedValue ("--" ++ name) value)
        else .error (.unexpected ("--" ++ name))
      | name, none => .error (.unexpected ("--" ++ name))

def dialect (g : Given) : Dialect := if g.xpath then .xpath else .xsd

end Given

namespace Command

def withPattern (topic : Topic) (limit : Option Nat) (arguments : List String)
    (command : Dialect → String → List String → Command) : Except UsageError Command := do
  match ← Given.read limit arguments .nothing with
  | none => return .showHelp topic
  | some g =>
    match g.values.reverse with
    | [] => .error .missingPattern
    | pattern :: subjects => return command g.dialect pattern subjects

def helpOn (topic : Topic) : List String → Except UsageError Command
  | [] => .ok (.showHelp topic)
  | name :: names =>
    match topic.commands.lookup name with
    | some topic => helpOn topic names
    | none => .error (.unknownCommand name)

def misplaced (topic : Topic) (separated : Bool) (text : String) : UsageError :=
  if separated ∧ (topic.commands.lookup text).isSome then .unexpected text else .unknownCommand text

def ofLeadingOption (topic : Topic) : Argument → Option (Except UsageError Command)
  | .short ('h' :: _) => some (.ok (.showHelp topic))
  | .short ('V' :: _) =>
    some (if topic = .program then .ok .showVersion else .error (.unexpected "-V"))
  | .short (letter :: _) => some (.error (.unexpected ("-" ++ letter.toString)))
  | .long name value =>
    let known := name = "help" ∨ (name = "version" ∧ topic = .program)
    match value with
    | some value =>
      some (.error (if known then .unexpectedValue ("--" ++ name) value
        else .unexpected ("--" ++ name)))
    | none =>
      some (if name = "help" then .ok (.showHelp topic)
        else if known then .ok .showVersion
        else .error (.unexpected ("--" ++ name)))
  | _ => none

def choose (topic : Topic) (command : Topic → List String → Except UsageError Command) :
    List String → Except UsageError Command
  | [] => .error (.nothingAsked topic)
  | text :: texts =>
    match Argument.ofString text with
    | .separator =>
      match texts with
      | [] => .error (.nothingAsked topic)
      | text :: _ => .error (misplaced topic true text)
    | .value name =>
      match topic.commands.lookup name with
      | some topic => command topic texts
      | none => .error (misplaced topic false name)
    | option => (ofLeadingOption topic option).getD (.error (.unexpected text))

def ofDebugArguments (topic : Topic) (arguments : List String) : Except UsageError Command :=
  match topic with
  | .tree => withPattern .tree (some 1) arguments fun d pattern _ => .showTree d pattern
  | .code => withPattern .code (some 1) arguments fun d pattern _ => .showCode d pattern
  | _ => helpOn .debugging arguments

def ofCommandArguments (topic : Topic) (arguments : List String) : Except UsageError Command :=
  match topic with
  | .matching => withPattern .matching none arguments .matchSubjects
  | .debugging => choose .debugging ofDebugArguments arguments
  | _ => helpOn .program arguments

def ofArguments : List String → Except UsageError Command := choose .program ofCommandArguments

end Command

end SchemaRegex.CommandLine

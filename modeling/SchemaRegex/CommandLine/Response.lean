import SchemaRegex.CommandLine.Arguments
import SchemaRegex.Pattern.Outline
import SchemaRegex.Report.Error
import SchemaRegex.Text.ControlSequence

/-!
# Responses

What the program writes and its exit status: zero if all went well, one if a subject does not match,
two for an error.
-/

namespace SchemaRegex.CommandLine

structure Response where
  status : Nat
  output : String
  errors : String
deriving DecidableEq, Repr

def version : String := "0.1.0"

namespace Topic

def about : Topic → String
  | program => "xspattern " ++ version ++ ", XML Schema and XPath patterns at your fingertips."
  | matching => "Match strings against a pattern"
  | debugging => "Debug utilities"
  | tree => "Print Abstract Syntax Tree (AST) for a pattern"
  | code => "Print the code produced for a pattern"
  | programHelp | debuggingHelp => "Print this message or the help of the given subcommand(s)"

def usage : Topic → String
  | program => "xspattern-cli <COMMAND>"
  | matching => "xspattern-cli match [OPTIONS] <PATTERN> [SUBJECT]..."
  | debugging => "xspattern-cli debug [COMMAND]"
  | tree => "xspattern-cli debug ast [OPTIONS] <PATTERN>"
  | code => "xspattern-cli debug code [OPTIONS] <PATTERN>"
  | programHelp => "xspattern-cli help [COMMAND]..."
  | debuggingHelp => "xspattern-cli debug help [COMMAND]..."

def help (t : Topic) : String := t.about ++ "\n\nUsage:\n  " ++ t.usage ++ "\n"

end Topic

def UsageError.message : UsageError → String
  | nothingAsked topic => topic.help
  | unknownCommand name =>
    "error: unrecognized subcommand '" ++ Text.withoutControls name ++ "'\n"
  | unexpected argument =>
    "error: unexpected argument '" ++ Text.withoutControls argument ++ "' found\n"
  | repeated option => "error: the argument '" ++ option ++ "' cannot be used multiple times\n"
  | unexpectedValue option value =>
    "error: unexpected value '" ++ Text.withoutControls value ++ "' for '" ++ option
      ++ "' found; no more were expected\n"
  | missingPattern =>
    "error: the following required arguments were not provided:\n  <PATTERN>\n"

namespace Response

def ofOutput (output : String) : Response := ⟨0, output, ""⟩

def ofUsageError (e : UsageError) : Response := ⟨2, "", e.message⟩

def ofCompileError (e : CompileError) : Response := ⟨2, "", e.report false ++ "\n"⟩

end Response

namespace Command

def readsInput : Command → Bool
  | matchSubjects _ _ [] => true
  | _ => false

def verdict (m : Matcher) (subject : String) : String :=
  (if m.matchesText subject then "[ PASS ] " else "[ FAIL ] ") ++ subject ++ "\n"

def run (input : String) : Command → Response
  | matchSubjects d pattern subjects =>
    match Matcher.compile pattern d defaultLimit with
    | .error e => .ofCompileError e
    | .ok m =>
      let subjects := match subjects with
        | [] => (Text.lines input.toList).map String.ofList
        | subjects => subjects
      ⟨if subjects.all m.matchesText then 0 else 1, String.join (subjects.map (verdict m)), ""⟩
  | showTree d pattern =>
    match Pattern.parse { dialect := d } pattern with
    | .error e => .ofCompileError (.pattern e)
    | .ok r => .ofOutput (r.outline.text ++ "\n")
  | showCode d pattern =>
    match Matcher.compile pattern d defaultLimit with
    | .error e => .ofCompileError e
    | .ok m => .ofOutput m.listing
  | showVersion => .ofOutput ("xspattern-cli " ++ version ++ "\n")
  | showHelp topic => .ofOutput topic.help

end Command

def respond (arguments : List String) (input : String) : Response :=
  match Command.ofArguments arguments with
  | .error e => .ofUsageError e
  | .ok command => command.run input

end SchemaRegex.CommandLine

import SchemaRegex.Pattern.Dialect

/-!
# Commands

What the program can be asked to do, and what can be wrong with a request.
-/

namespace SchemaRegex.CommandLine

inductive Topic where
  | program
  | matching
  | debugging
  | tree
  | code
  | programHelp
  | debuggingHelp
deriving DecidableEq, Repr

namespace Topic

def commands : Topic → List (String × Topic)
  | program => [("match", matching), ("debug", debugging), ("help", programHelp)]
  | debugging => [("ast", tree), ("code", code), ("help", debuggingHelp)]
  | _ => []

end Topic

inductive Command where
  | matchSubjects (d : Dialect) (pattern : String) (subjects : List String)
  | showTree (d : Dialect) (pattern : String)
  | showCode (d : Dialect) (pattern : String)
  | showVersion
  | showHelp (topic : Topic)
deriving DecidableEq, Repr

inductive UsageError where
  | nothingAsked (topic : Topic)
  | unknownCommand (name : String)
  | unexpected (argument : String)
  | repeated (option : String)
  | unexpectedValue (option value : String)
  | missingPattern
deriving DecidableEq, Repr

end SchemaRegex.CommandLine

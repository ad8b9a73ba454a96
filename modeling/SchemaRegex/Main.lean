import SchemaRegex.CommandLine.Response

/-!
# The program

Reads the input if a command needs it, and writes the response.
-/

open SchemaRegex.CommandLine

partial def readRest (stream : IO.FS.Stream) (text : String) : IO String := do
  let line ← stream.getLine
  if line.isEmpty then return text else readRest stream (text ++ line)

def main (arguments : List String) : IO UInt32 := do
  let input ← match Command.ofArguments arguments with
    | .ok command => if command.readsInput then readRest (← IO.getStdin) "" else pure ""
    | .error _ => pure ""
  let response := respond arguments input
  IO.print response.output
  IO.eprint response.errors
  return UInt32.ofNat response.status

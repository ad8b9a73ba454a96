import SchemaRegex.CodepointSet.Listing
import SchemaRegex.Program.Instruction

/-!
# The listing of a program

A line for each instruction, behind its location as five or more hexadecimal digits. A jump with one
target is listed as `JUMP`, any other as `FORK`. An empty line comes first.
-/

namespace SchemaRegex

def locationText (location : Nat) : List Char := Text.paddedNumeral 16 5 location

namespace Instruction

def listing : Instruction → List Char
  | accept => "MATCH".toList
  | any => "ANY".toList
  | literal c => "LIT ".toList ++ Text.hexCodepoint c
  | set s => "CLASS ".toList ++ s.listing
  | jump targets =>
    (if targets.size = 1 then "JUMP" else "FORK").toList
      ++ targets.toList.flatMap fun target => ' ' :: locationText target

end Instruction

def lineText (instr : Instruction) (location : Nat) : List Char :=
  locationText location ++ ':' :: ' ' :: instr.listing ++ ['\n']

namespace Program

def listing (p : Program) : List Char :=
  '\n' :: p.toList.zipIdx.flatMap fun (instr, location) => lineText instr location

end Program

end SchemaRegex

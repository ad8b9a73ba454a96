import SchemaRegex.CodepointSet.Basic

/-!
# Instructions

A program is a numbered list of instructions. Some take a codepoint off the input and go on to the
next location; a jump goes on at several locations at once and takes nothing; `accept` is where a
match is found.
-/

namespace SchemaRegex

inductive Instruction where
  | accept
  /-- Takes any codepoint, and the marks of the two ends as well. -/
  | any
  | literal (c : Nat)
  | set (s : CodepointSet)
  | jump (targets : Array Nat)
deriving DecidableEq

namespace Instruction

def takes (c : Nat) : Instruction → Bool
  | any => true
  | literal l => l = c
  | set s => s.contains c
  | accept | jump _ => false

def targets : Instruction → List Nat
  | jump targets => targets.toList
  | _ => []

end Instruction

abbrev Program := Array Instruction

end SchemaRegex

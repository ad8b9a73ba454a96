import SchemaRegex.CodepointSet.Basic
import SchemaRegex.Text.Numeral

/-!
# The listing of a set

A set is listed as its ranges in brackets, separated by spaces: `[0x30] [0x61-0x7a]`.
-/

namespace SchemaRegex

def Range.listing (r : Range) : List Char :=
  if r.lo = r.hi then '[' :: Text.hexCodepoint r.lo ++ [']']
  else '[' :: Text.hexCodepoint r.lo ++ '-' :: Text.hexCodepoint r.hi ++ [']']

def CodepointSet.listing (s : CodepointSet) : List Char :=
  [' '].intercalate (s.ranges.toList.map Range.listing)

instance : ToString CodepointSet where
  toString s := String.ofList s.listing

end SchemaRegex

/-!
# Text in 16-bit units

A character beyond the first 65536 takes a pair of units, a high surrogate and a low one. Surrogates
that form no pair are left as they are.
-/

namespace SchemaRegex.Text

def isHighSurrogate (unit : Nat) : Bool := 0xD800 ≤ unit && unit ≤ 0xDBFF

def isLowSurrogate (unit : Nat) : Bool := 0xDC00 ≤ unit && unit ≤ 0xDFFF

def pairValue (high low : Nat) : Nat := 0x10000 + (high - 0xD800) * 0x400 + (low - 0xDC00)

def utf16Units (c : Nat) : List Nat :=
  if c < 0x10000 then [c]
  else [0xD800 + (c - 0x10000) / 0x400, 0xDC00 + (c - 0x10000) % 0x400]

def ofUtf16 : List Nat → List Nat
  | high :: low :: units =>
    if isHighSurrogate high && isLowSurrogate low then pairValue high low :: ofUtf16 units
    else high :: ofUtf16 (low :: units)
  | units => units

end SchemaRegex.Text

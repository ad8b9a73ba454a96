/-!
# Dialects

Patterns come in two dialects. A schema pattern has to match a whole subject. An XPath pattern has
to match some part of it, and has anchors for the two ends.
-/

namespace SchemaRegex

inductive Dialect where
  | xsd
  | xpath
deriving DecidableEq, Repr

namespace Dialect

instance : Inhabited Dialect := ⟨xsd⟩

def name : Dialect → String
  | xsd => "Xsd"
  | xpath => "XPath"

/-- An unknown block name stands for all characters, so that a schema written for a newer version
of Unicode still works. -/
def unknownBlocksMatchEverything : Dialect → Bool
  | xsd => true
  | xpath => false

def metacharacters : Dialect → List Char
  | xsd => ".\\?*+\x7b\x7d()|[]".toList
  | xpath => ".\\?*+\x7b\x7d()|[]^$".toList

def escapable : Dialect → List Char
  | xsd => "\\|.-^?*+\x7b\x7d()[]".toList
  | xpath => "\\|.-^?*+\x7b\x7d()[]$".toList

end Dialect

end SchemaRegex

import SchemaRegex.Pattern.Characters
import SchemaRegex.Pattern.Regex

/-!
# Quantifiers

`?`, `*`, `+`, `{n}`, `{n,}` and `{n,m}`. In XPath a question mark behind a quantifier asks for as
few occurrences as possible. That changes which match is found but not whether there is one, so it
is read and forgotten.
-/

namespace SchemaRegex.Pattern

open Reader

def bound (s : Settings) : Reader Nat :=
  resolve s.commits (consumed (many1 digit)) fun digits =>
    match Text.readNumeral? 10 digits with
    | some n => .ok n
    | none => .error .quantifierTooLarge

def boundsInOrder : Nat × Nat → Except Violation Quantifier
  | (min, max) => if max < min then .error .quantifierOrder else .ok ⟨min, some max⟩

def quantity (s : Settings) : Reader Quantifier :=
  firstOf (resolve s.commits ((bound s).pair ((token ",").skipThen (bound s))) boundsInOrder)
    [((bound s).thenSkip (token ",")).map fun min => ⟨min, none⟩,
      (bound s).map fun n => ⟨n, some n⟩]

def greedyQuantifier (s : Settings) : Reader Quantifier :=
  firstOf ((token "?").as ⟨0, some 1⟩)
    [(token "*").as ⟨0, none⟩, (token "+").as ⟨1, none⟩,
      delimited s.commits "\x7b" (quantity s) "\x7d"]

def quantifier (s : Settings) : Reader Quantifier :=
  match s.dialect with
  | .xsd => greedyQuantifier s
  | .xpath => (greedyQuantifier s).thenSkip (opt (token "?"))

end SchemaRegex.Pattern

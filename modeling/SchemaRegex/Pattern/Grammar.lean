import SchemaRegex.Codepoint
import SchemaRegex.Pattern.ClassExpression
import SchemaRegex.Pattern.Quantity

/-!
# The grammar of patterns

    regexp ::= branch ('|' branch)*
    branch ::= piece*
    piece  ::= atom quantifier?
    atom   ::= normalChar | escape | classExpr | '.' | '(' regexp ')'

XPath adds the atoms `^`, `$` and `(?:` regexp `)`, and refuses back-references.
-/

namespace SchemaRegex.Pattern

open Reader

def charAtom (s : Settings) (classExpr : Reader CodepointSet) : Reader Atom :=
  firstOf ((escapedChar s.dialect).map fun c => .literal c.toNat)
    [(classEscape s).map .set, classExpr.map .set, (token ".").as (.set .wildcard)]

def backreference (s : Settings) : Reader Atom :=
  resolve s.commits ((token "\\").skipThen
      ((oneOf ['1', '2', '3', '4', '5', '6', '7', '8', '9']).pair (many digit)))
    fun _ => .error .backreference

/-- An atom, given what the brackets may contain. Without a reader the limit for brackets is
reached. -/
def atom (s : Settings) (classExpr : Reader CodepointSet) (group : Option (Reader Regex)) :
    Reader Atom :=
  let xpath := s.dialect = .xpath
  firstOf ((normalChar s.dialect).map fun c => .literal c.toNat)
    [charAtom s classExpr,
      guarded xpath ((token "^").as (.literal startMark)),
      guarded xpath ((token "$").as (.literal endMark)),
      guarded xpath (backreference s),
      guarded xpath ((enclosed s "(?:" group ")").map .group),
      (enclosed s "(" group ")").map .group]

/-- An atom and its quantifier. A rejection is recorded: what ends a repetition is often what is
wrong. -/
def piece (s : Settings) (atom : Reader Atom) : Reader Piece :=
  recorded ((atom.pair (opt (quantifier s))).map fun (atom, quantifier) =>
    ⟨atom, quantifier.getD .once⟩)

def branch (s : Settings) (atom : Reader Atom) : Reader Branch :=
  Reader.map Branch.mk (many (piece s atom))

def branches (s : Settings) (atom : Reader Atom) : Reader Regex :=
  ((branch s atom).pair (many ((token "|").skipThen (cut s.commits (branch s atom))))).map
    fun (first, others) => ⟨first :: others⟩

def regexp (s : Settings) : Nat → Unread → Attempt Regex
  | 0, input => branches s (atom s (classExpr s 0) none) input
  | depth + 1, input =>
    branches s (atom s (classExpr s (depth + 1)) (some (regexp s depth))) input

/-- An expression and nothing behind it. If it ends too early, the deepest failure of a piece is a
better explanation than what stands there. -/
def pattern (s : Settings) (input : Unread) : Outcome Regex :=
  let whole := Reader.thenSkip (regexp s s.nestLimit) atEnd input
  match whole.outcome with
  | .rejected f =>
    match Failure.deepest? whole.trail with
    | some g => .rejected (if g.Deeper f then g else f)
    | none => .rejected f
  | outcome => outcome

end SchemaRegex.Pattern

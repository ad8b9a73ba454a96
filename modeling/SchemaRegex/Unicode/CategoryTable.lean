import SchemaRegex.Text.Numeral
import SchemaRegex.Unicode.Category
import SchemaRegex.Unicode.NamedSets

/-!
# The packed category table

A table is a text of symbols, six bits each. A run of consecutive codepoints of one kind is one
symbol for the kind, whose bit 5 says that the length takes four symbols and not one, and then the
length less one, low bits first. The first run starts at codepoint 0 and each other one where the
last ended. `readRuns` reads the runs of a text, `placeRuns` gives them their places, and
`decodeCategories` is the table of all category names and group names.
-/

namespace SchemaRegex.Unicode

inductive TableError where
  | invalidSymbol (symbol : Char)
  | truncated
  | invalidCategory (index : Nat)
  | malformedLine (line : String)
deriving DecidableEq, Repr

def TableError.message : TableError → String
  | invalidSymbol c => "invalid symbol `" ++ c.toString ++ "` in packed category table"
  | truncated => "packed category table is truncated"
  | invalidCategory i =>
    "invalid category index " ++ Text.decimal i ++ " in packed category table"
  | malformedLine line => "malformed line in Unicode data: `" ++ line ++ "`"

def symbols : List Char :=
  "ABCDEFGHIJKLMNOPQRSTUVWXYZabcdefghijklmnopqrstuvwxyz0123456789+/".toList

def symbolOf (n : Nat) : Char := symbols.getD (n % 64) 'A'

def symbolValue? (c : Char) : Option Nat := symbols.idxOf? c

/-- What the codepoints of a run have in common: a category, none, or upper and lower case letters
in turn, an upper case one first. -/
inductive RunKind where
  | alternating
  | gap
  | category (c : GeneralCategory)
deriving DecidableEq, Repr

def RunKind.code : RunKind → Nat
  | alternating => 0
  | gap => 1
  | category c => c.index + 2

def RunKind.ofCode? : Nat → Option RunKind
  | 0 => some alternating
  | 1 => some gap
  | i + 2 => (GeneralCategory.ofIndex? i).map category

structure Run where
  kind : RunKind
  length : Nat
deriving DecidableEq, Repr

def readSymbol : List Char → Except TableError (Nat × List Char)
  | [] => .error .truncated
  | c :: rest =>
    match symbolValue? c with
    | none => .error (.invalidSymbol c)
    | some value => .ok (value, rest)

def readLength (long : Bool) (text : List Char) : Except TableError (Nat × List Char) := do
  let (a, rest) ← readSymbol text
  if long then
    let (b, rest) ← readSymbol rest
    let (c, rest) ← readSymbol rest
    let (d, rest) ← readSymbol rest
    return (1 + a + 64 * b + 4096 * c + 262144 * d, rest)
  else return (1 + a, rest)

def readRun (text : List Char) : Except TableError (Run × List Char) := do
  let (head, rest) ← readSymbol text
  let (length, rest) ← readLength (32 ≤ head) rest
  match RunKind.ofCode? (head % 32) with
  | none => .error (.invalidCategory (head % 32 - 2))
  | some kind => return (⟨kind, length⟩, rest)

theorem length_of_readSymbol {text rest : List Char} {value : Nat}
    (ok : readSymbol text = .ok (value, rest)) : rest.length < text.length := by
  cases text with
  | nil => simp [readSymbol] at ok
  | cons c text =>
    simp only [readSymbol] at ok
    split at ok <;> simp_all

theorem length_of_readLength {long : Bool} {text rest : List Char} {value : Nat}
    (ok : readLength long text = .ok (value, rest)) : rest.length < text.length := by
  simp only [readLength, bind, Except.bind, pure, Except.pure] at ok
  split at ok
  · simp at ok
  rename_i a ha
  have first := length_of_readSymbol ha
  split at ok
  · split at ok
    · simp at ok
    rename_i b hb
    split at ok
    · simp at ok
    rename_i c hc
    split at ok
    · simp at ok
    rename_i d hd
    have second := length_of_readSymbol hb
    have third := length_of_readSymbol hc
    have fourth := length_of_readSymbol hd
    simp only [Except.ok.injEq, Prod.mk.injEq] at ok
    obtain ⟨_, rfl⟩ := ok
    omega
  · simp only [Except.ok.injEq, Prod.mk.injEq] at ok
    obtain ⟨_, rfl⟩ := ok
    exact first

theorem length_of_readRun {text rest : List Char} {run : Run}
    (ok : readRun text = .ok (run, rest)) : rest.length < text.length := by
  simp only [readRun, bind, Except.bind, pure, Except.pure] at ok
  split at ok
  · simp at ok
  rename_i head hh
  split at ok
  · simp at ok
  rename_i length hl
  have first := length_of_readSymbol hh
  have second := length_of_readLength hl
  split at ok
  · simp at ok
  · simp only [Except.ok.injEq, Prod.mk.injEq] at ok
    obtain ⟨_, rfl⟩ := ok
    omega

def readRuns (text : List Char) : Except TableError (List Run) :=
  if text = [] then .ok []
  else
    match _ok : readRun text with
    | .error e => .error e
    | .ok (run, rest) => (readRuns rest).map (run :: ·)
termination_by text.length
decreasing_by exact length_of_readRun _ok

structure PlacedRun where
  first : Nat
  run : Run
deriving DecidableEq, Repr

def placeRuns (next : Nat) : List Run → List PlacedRun
  | [] => []
  | run :: runs => ⟨next, run⟩ :: placeRuns (next + run.length) runs

def everySecond (first stop : Nat) : List Range :=
  let count := (min stop (lastCodepoint + 1) - first + 1) / 2
  (List.range' first count 2).map fun c => ⟨c, c⟩

def PlacedRun.ranges (p : PlacedRun) (category : GeneralCategory) : List Range :=
  let stop := p.first + p.run.length
  match p.run.kind with
  | .gap => []
  | .category c => if c = category then [⟨p.first, stop - 1⟩] else []
  | .alternating =>
    if category = .uppercaseLetter then everySecond p.first stop
    else if category = .lowercaseLetter then everySecond (p.first + 1) stop
    else []

def tabulate (runs : List PlacedRun) : NamedSets :=
  GeneralCategory.all.foldl (fun table category =>
    let set := CodepointSet.ofRanges (runs.flatMap (·.ranges category))
    (table.extend category.group.name set).insert category.name set) .empty

def decodeCategories (packed : List Char) : Except TableError NamedSets :=
  (readRuns packed).map fun runs => tabulate (placeRuns 0 runs)

end SchemaRegex.Unicode

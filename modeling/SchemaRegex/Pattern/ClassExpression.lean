import SchemaRegex.Pattern.ClassEscape

/-!
# Class expressions

The items of a class expression are characters, ranges and class escapes. A circumflex in front
takes the complement, and a hyphen before a last expression in brackets takes that away, as
in `[a-z-[aeiou]]`.

A hyphen is a character of its own at the start, behind a range or an escape, at the end and right
before a subtraction. Behind a single character it makes a range.
-/

namespace SchemaRegex.Pattern

open Reader

def endOfItems : Reader Unit := peek ((token "]").orElse (token "-["))

def rangeTail : Reader Char :=
  (token "-").skipThen (anyChar.satisfying (fun c => c ≠ '[' ∧ c ≠ ']') ["range endpoint"])

/-- A character behind a single character. A hyphen is one only at the end of the items. -/
def charAfterSingle (d : Dialect) : Reader Char :=
  ((((token "-").thenSkip (notAhead (token "[") ["not ["])).thenSkip endOfItems).as '-').orElse
    ((notAhead (token "-") ["not -"]).skipThen (classChar d))

def endpoint (d : Dialect) : Reader (Option Char) :=
  ((token "-").as none).orElse ((classChar d).map some)

def rangeBetween : Option Char × Option Char → Except Violation CodepointSet
  | (some first, some last) =>
    match CodepointSet.ofBounds first.toNat last.toNat with
    | .ok set => .ok set
    | .error _ => .error .rangeOrder
  | _ => .error .hyphenEndpoint

def charRange (s : Settings) : Reader CodepointSet :=
  resolve s.commits ((endpoint s.dialect).pair ((token "-").skipThen (endpoint s.dialect)))
    rangeBetween

def loneChar (d : Dialect) (afterSingle : Bool) : Reader Char :=
  Reader.thenSkip (if afterSingle then charAfterSingle d else classChar d)
    (notAhead rangeTail ["not -"])

def item (s : Settings) (afterSingle : Bool) : Reader (CodepointSet × Bool) :=
  ((loneChar s.dialect afterSingle).map fun c => (.singleton c.toNat, true)).orElse
    (((charRange s).orElse (classEscape s)).map fun set => (set, false))

/-- The items from here on, at least one. Behind an item they could also have ended. -/
def items (s : Settings) (started afterSingle : Bool) (input : Unread) :
    Attempt (List CodepointSet) :=
  let first := item s afterSingle input
  match first.outcome with
  | .accepted (set, single) rest =>
    if rest.size < input.size then
      match (endOfItems rest).outcome with
      | .accepted _ _ => ⟨.accepted [set] rest, first.trail⟩
      | _ =>
        let others := items s true single rest
        match others.outcome with
        | .accepted sets rest => ⟨.accepted (set :: sets) rest, first.trail ++ others.trail⟩
        | .rejected f => ⟨.rejected f, first.trail ++ others.trail⟩
        | .aborted f => ⟨.aborted f, first.trail ++ others.trail⟩
    else ⟨.rejected ⟨input, .expected []⟩, first.trail⟩
  | .rejected f =>
    let closed : Failure := ⟨input, .expected ["]", "-["]⟩
    ⟨.rejected (if started then f.merge closed else f), first.trail⟩
  | .aborted f => ⟨.aborted f, first.trail⟩
termination_by input.size

def positiveGroup (s : Settings) : Reader CodepointSet :=
  (notAhead (token "^") ["not ^"]).skipThen
    (Reader.map CodepointSet.unionAll (items s false false))

def negativeGroup (s : Settings) : Reader CodepointSet :=
  (token "^").skipThen
    (Reader.map (fun sets => (CodepointSet.unionAll sets).complement) (items s false false))

def charGroup (s : Settings) (classExpr : Reader CodepointSet) : Reader CodepointSet :=
  (((positiveGroup s).orElse (negativeGroup s)).pair (opt ((token "-").skipThen classExpr))).map
    fun (group, except) =>
      match except with
      | some except => group.diff except
      | none => group

def classExpr (s : Settings) : Nat → Unread → Attempt CodepointSet
  | 0, input => enclosed s "[" none "]" input
  | depth + 1, input => enclosed s "[" (some (charGroup s (classExpr s depth))) "]" input

end SchemaRegex.Pattern

import SchemaRegex.Text.Blank
import SchemaRegex.Unicode.CategoryTable

/-!
# From character data to a packed category table

The character data has a line for each codepoint, with fields between semicolons: the codepoint,
a name, a category. Two lines whose names end in `, First>` and `, Last>` stand for all the
codepoints between them. Entries are read, gaps are filled in, upper and lower case letters in turn
are marked, and stretches of one kind are written as runs.
-/

namespace SchemaRegex.Unicode

structure Entry where
  codepoint : Nat
  kind : RunKind
deriving DecidableEq, Repr

def readCodepoint? (text : List Char) : Option Nat :=
  Text.readNumeral? 16 (Text.trim text)

def readFields? (line : List Char) : Option (Nat × List Char × List Char) :=
  match Text.splitAll ';' line with
  | codepoint :: name :: category :: _ =>
    (readCodepoint? codepoint).map fun c => (c, name, category)
  | _ => none

/-- Reads the entries of some trimmed lines; `start` is the codepoint of a `, First>` line that has
no `, Last>` line yet, and `done` holds the entries so far, the latest first. Lines with a category
that has no index are left out. -/
def readEntries (start : Option Nat) (done : List Entry) :
    List (List Char) → Except TableError (List Entry)
  | [] => .ok done.reverse
  | line :: rest =>
    match readFields? line with
    | none => .error (.malformedLine (String.ofList line))
    | some (codepoint, name, category) =>
      match GeneralCategory.ofName? (String.ofList category) with
      | none => readEntries start done rest
      | some category =>
        if ", First>".toList.isSuffixOf name then readEntries (some codepoint) done rest
        else if ", Last>".toList.isSuffixOf name then
          let between := match start with
            | none => []
            | some first => List.range' first (codepoint - first)
          let done := between.foldl (fun done c => ⟨c, .category category⟩ :: done) done
          readEntries none (⟨codepoint, .category category⟩ :: done) rest
        else readEntries start (⟨codepoint, .category category⟩ :: done) rest

def entriesOf (data : List Char) : Except TableError (List Entry) :=
  readEntries none [] (((Text.lines data).map Text.trim).filter (· ≠ []))

def fillGaps (entries : List Entry) : List Entry :=
  let nexts := 0 :: entries.map (·.codepoint + 1)
  (entries.zip nexts).flatMap fun (entry, next) =>
    (List.range' next (entry.codepoint - next)).map (⟨·, .gap⟩) ++ [entry]

inductive Turn where
  | outside
  | lower
  | upper
deriving DecidableEq, Repr

/-- The marking of letters in turn: the two entries that may still change, the finished ones, the
latest first, and what continues the present stretch. -/
structure Marking where
  finished : List Entry
  first : Option Entry
  second : Option Entry
  turn : Turn

def Marking.start : Marking := ⟨[], none, none, .outside⟩

def Marking.shift (m : Marking) (entry : Entry) (turn : Turn) : Marking where
  finished := match m.first with
    | none => m.finished
    | some e => e :: m.finished
  first := m.second
  second := some entry
  turn := turn

def Entry.withKind (entry : Entry) (kind : RunKind) : Entry := { entry with kind := kind }

/-- Marks the next entry. A stretch starts at an upper, a lower and an upper case letter. An upper
case letter where a lower case one was due ends the stretch one entry earlier, so that a new
stretch may start at that entry. -/
def Marking.step (m : Marking) (entry : Entry) : Marking :=
  let upper := RunKind.category .uppercaseLetter
  let lower := RunKind.category .lowercaseLetter
  match m.turn with
  | .outside =>
    match m.first, m.second with
    | some f, some s =>
      if f.kind = upper ∧ s.kind = lower ∧ entry.kind = upper then
        { m with
          first := some (f.withKind .alternating)
          second := some (s.withKind .alternating) }.shift (entry.withKind .alternating) .lower
      else m.shift entry .outside
    | _, _ => m.shift entry .outside
  | .lower =>
    if entry.kind = lower then m.shift (entry.withKind .alternating) .upper
    else if entry.kind = upper then
      { m with second := m.second.map (Entry.withKind · upper) }.shift entry .outside
    else m.shift entry .outside
  | .upper =>
    if entry.kind = upper then m.shift (entry.withKind .alternating) .lower
    else m.shift entry .outside

def Marking.entries (m : Marking) : List Entry :=
  m.finished.reverse ++ (m.first.toList ++ m.second.toList)

def markAlternations (entries : List Entry) : List Entry :=
  (entries.foldl Marking.step .start).entries

structure Stretch where
  start : Nat
  stop : Nat
  kind : RunKind
deriving DecidableEq, Repr

def stretches (entries : List Entry) : List Stretch :=
  (entries.foldl (fun done entry =>
    match done with
    | [] => [⟨entry.codepoint, entry.codepoint, entry.kind⟩]
    | last :: done =>
      if last.kind = entry.kind then { last with stop := entry.codepoint } :: done
      else ⟨entry.codepoint, entry.codepoint, entry.kind⟩ :: last :: done) []).reverse

def writeRun (kind : RunKind) (rest : Nat) : List Char :=
  if rest < 64 then [symbolOf kind.code, symbolOf rest]
  else [symbolOf (kind.code + 32), symbolOf rest, symbolOf (rest / 64), symbolOf (rest / 4096),
    symbolOf (rest / 262144)]

def Stretch.write (s : Stretch) : List Char :=
  writeRun s.kind ((s.stop + (Text.maxWord + 1) - s.start) % (Text.maxWord + 1))

def encodeCategories (data : List Char) : Except TableError (List Char) :=
  (entriesOf data).map fun entries =>
    (stretches (markAlternations (fillGaps entries))).flatMap Stretch.write

end SchemaRegex.Unicode

import SchemaRegex.Report.Row
import SchemaRegex.Report.Source
import SchemaRegex.Report.Window
import SchemaRegex.Text.Numeral
import SchemaRegex.Unicode.Columns

/-!
# Annotated snippets

A report shows the line of a text where something is wrong, with carets below and a label behind
them. The other lines are not shown:

    error[E001]: syntax error
     --> pattern:1:5
      |
    1 | ab(c
      |     ^ expected ")"
      |
-/

namespace SchemaRegex.Report

structure Snippet where
  code : String
  title : String
  origin : String
  source : List Char
  span : Span
  label : String

namespace Snippet

def terminalColumns : Nat := 140

/-- Characters that join others or change the direction of writing, which are not shown. -/
def isHidden (c : Char) : Bool :=
  c.toNat == 0x200D || (0x202A ≤ c.toNat && c.toNat ≤ 0x202E)
    || (0x2066 ≤ c.toNat && c.toNat ≤ 0x2069)

def carets (s : Snippet) (l : Line) : Span :=
  let start := Unicode.columns 0 (l.before s.span.start)
  let stop := Unicode.columns 0 (l.before s.span.stop)
  ⟨start, if start = stop then stop + 1 else stop⟩

def window (s : Snippet) (lines : List Line) (carets : Span) : Window :=
  let next := ((lines.map (·.number + 1)).max?).getD 1
  Window.fit (terminalColumns - (3 + (Text.numeral 10 next).length))
    { indentation := (lines.filterMap Line.indentation?).min?
      spanLeft := carets.start
      spanRight := carets.stop
      labelRight := carets.stop + s.label.utf8ByteSize + 1
      longest := ((lines.map fun l => byteLength l.text).max?).getD 0 }

def frame (indent : Nat) : Row := Row.put [] (indent + 1) .frame ['|']

def lineRows (s : Snippet) (lines : List Line) (l : Line) : List Row :=
  let number := Text.numeral 10 l.number
  let start := number.length + 3
  let text := l.text.filter fun c => !isHidden c
  let length := byteLength text
  let carets := s.carets l
  let window := s.window lines carets
  let first := window.first length
  let shown := Unicode.fitting (window.last length - first) (text.drop first)
  let row := (Row.put [] 0 .frame (number ++ [' ', '|'])).put start .plain shown
  let row := if window.cutsLeft then row.put start .frame ['.', '.', '.'] else row
  let row :=
    if window.cutsRight length then
      row.put (start + Unicode.columns 1 shown - 3) .frame ['.', '.', '.']
    else row
  let shift := Unicode.columns 1 (text.take first)
  let left := start + carets.start - shift
  let right := start + carets.stop - 1 - shift
  let below := (frame number.length).put left .alert (List.replicate (right + 1 - left) '^')
  [row, below.put (start + (carets.stop + 1 - shift)) .alert s.label.toList]

def position (s : Snippet) : List Line → Nat × Nat
  | [] => (1, 1)
  | l :: _ => (l.number, (l.before s.span.start).length + 1)

def rows (s : Snippet) : List Row :=
  let lines := excerpt s.source s.span
  let title : Row := Row.put [] 0 .alert ("error[" ++ s.code ++ "]").toList
  let title := title.put title.length .plain [':', ' ']
  let title := title.put title.length .bold s.title.toList
  let (number, column) := s.position lines
  let place := " " ++ s.origin ++ ":" ++ Text.decimal number ++ ":" ++ Text.decimal column
  let (indent, shown) := match lines with
    | [] => (0, [])
    | l :: _ => ((Text.numeral 10 l.number).length, s.lineRows lines l)
  let arrow := Row.put [] indent .frame ['-', '-', '>']
  [title, arrow.put arrow.length .plain place.toList, frame indent] ++ shown ++ [frame indent]

def text (s : Snippet) (colors : Bool) : String :=
  String.ofList (['\n'].intercalate (s.rows.map (Row.text colors)))

end Snippet

end SchemaRegex.Report

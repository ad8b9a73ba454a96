/-!
# Rows of styled characters

A row is written from any column; what is not written is blank. With colours, a run of characters of
one style stands between escape sequences.
-/

namespace SchemaRegex.Report

inductive Style where
  | plain
  | bold
  | frame
  | alert
deriving DecidableEq, Repr

namespace Style

def opening : Style → List Char
  | plain => []
  | bold => "\x1b[1m".toList
  | frame => "\x1b[1m\x1b[94m".toList
  | alert => "\x1b[1m\x1b[91m".toList

def closing : Style → List Char
  | plain => []
  | _ => "\x1b[0m".toList

end Style

abbrev Row := List (Style × Char)

namespace Row

def put (row : Row) (column : Nat) (style : Style) (text : List Char) : Row :=
  if text = [] then row
  else
    (row.take column).rightpad column (.plain, ' ') ++ text.map (fun c => (style, c))
      ++ row.drop (column + text.length)

def plainText (row : Row) : List Char := row.map Prod.snd

def styledText (run : Style) : Row → List Char
  | [] => run.closing
  | (style, c) :: row =>
    if style = run then c :: styledText run row
    else run.closing ++ style.opening ++ c :: styledText style row

def text (colors : Bool) (row : Row) : List Char :=
  if colors then styledText .plain row else row.plainText

end Row

end SchemaRegex.Report

import SchemaRegex.Text.Numeral

/-!
# Outlines

A value as nested blocks, one item on a line, each level four columns further in. A block is a title
with its items between brackets; every item ends with a comma.
-/

namespace SchemaRegex.Text

inductive Outline where
  | leaf (text : String)
  | block (title opening closing : String) (items : List (String × Outline))

namespace Outline

def record (title : String) (fields : List (String × Outline)) : Outline :=
  block (title ++ " ") "\x7b" "\x7d" (fields.map fun (name, value) => (name ++ ": ", value))

def wrapped (title : String) (value : Outline) : Outline := block title "(" ")" [("", value)]

def list (values : List Outline) : Outline := block "" "[" "]" (values.map fun value => ("", value))

def pair (first second : Outline) : Outline := block "" "(" ")" [("", first), ("", second)]

def number (n : Nat) : Outline := leaf (Text.decimal n)

def indent (line : String) : String := "    " ++ line

def item (label : String) : List String → List String
  | [] => []
  | [line] => [label ++ line ++ ","]
  | line :: lines => (label ++ line) :: (lines.dropLast ++ [lines.getLast?.getD "" ++ ","])

mutual

def lines : Outline → List String
  | leaf text => [text]
  | block title opening closing [] => [title ++ opening ++ closing]
  | block title opening closing (first :: others) =>
    (title ++ opening) :: (itemLines (first :: others)).map indent ++ [closing]

def itemLines : List (String × Outline) → List String
  | [] => []
  | (label, value) :: items => item label value.lines ++ itemLines items

end

def text (o : Outline) : String := "\n".intercalate o.lines

end Outline

end SchemaRegex.Text

/-!
# General categories

The categories of characters with their two-letter names, and the seven groups with one-letter
names. Surrogates have no category here: they never occur in a text.
-/

namespace SchemaRegex.Unicode

inductive GeneralCategory where
  | uppercaseLetter | lowercaseLetter | titlecaseLetter | modifierLetter | otherLetter
  | nonspacingMark | spacingMark | enclosingMark
  | decimalNumber | letterNumber | otherNumber
  | connectorPunctuation | dashPunctuation | openPunctuation | closePunctuation
  | initialPunctuation | finalPunctuation | otherPunctuation
  | spaceSeparator | lineSeparator | paragraphSeparator
  | mathSymbol | currencySymbol | modifierSymbol | otherSymbol
  | control | format | privateUse | unassigned
deriving DecidableEq, Repr

inductive CategoryGroup where
  | letter | mark | number | punctuation | separator | symbol | other
deriving DecidableEq, Repr

def CategoryGroup.name : CategoryGroup → String
  | letter => "L"
  | mark => "M"
  | number => "N"
  | punctuation => "P"
  | separator => "Z"
  | symbol => "S"
  | other => "C"

namespace GeneralCategory

def all : List GeneralCategory :=
  [uppercaseLetter, lowercaseLetter, titlecaseLetter, modifierLetter, otherLetter,
    nonspacingMark, spacingMark, enclosingMark,
    decimalNumber, letterNumber, otherNumber,
    connectorPunctuation, dashPunctuation, openPunctuation, closePunctuation,
    initialPunctuation, finalPunctuation, otherPunctuation,
    spaceSeparator, lineSeparator, paragraphSeparator,
    mathSymbol, currencySymbol, modifierSymbol, otherSymbol,
    control, format, privateUse, unassigned]

def index (category : GeneralCategory) : Nat := all.idxOf category

def ofIndex? (i : Nat) : Option GeneralCategory := all[i]?

def name : GeneralCategory → String
  | uppercaseLetter => "Lu"
  | lowercaseLetter => "Ll"
  | titlecaseLetter => "Lt"
  | modifierLetter => "Lm"
  | otherLetter => "Lo"
  | nonspacingMark => "Mn"
  | spacingMark => "Mc"
  | enclosingMark => "Me"
  | decimalNumber => "Nd"
  | letterNumber => "Nl"
  | otherNumber => "No"
  | connectorPunctuation => "Pc"
  | dashPunctuation => "Pd"
  | openPunctuation => "Ps"
  | closePunctuation => "Pe"
  | initialPunctuation => "Pi"
  | finalPunctuation => "Pf"
  | otherPunctuation => "Po"
  | spaceSeparator => "Zs"
  | lineSeparator => "Zl"
  | paragraphSeparator => "Zp"
  | mathSymbol => "Sm"
  | currencySymbol => "Sc"
  | modifierSymbol => "Sk"
  | otherSymbol => "So"
  | control => "Cc"
  | format => "Cf"
  | privateUse => "Co"
  | unassigned => "Cn"

def group : GeneralCategory → CategoryGroup
  | uppercaseLetter | lowercaseLetter | titlecaseLetter | modifierLetter | otherLetter => .letter
  | nonspacingMark | spacingMark | enclosingMark => .mark
  | decimalNumber | letterNumber | otherNumber => .number
  | connectorPunctuation | dashPunctuation | openPunctuation | closePunctuation
  | initialPunctuation | finalPunctuation | otherPunctuation => .punctuation
  | spaceSeparator | lineSeparator | paragraphSeparator => .separator
  | mathSymbol | currencySymbol | modifierSymbol | otherSymbol => .symbol
  | control | format | privateUse | unassigned => .other

def ofName? (name : String) : Option GeneralCategory := all.find? fun c => c.name == name

theorem mem_all (category : GeneralCategory) : category ∈ all := by
  cases category <;> decide

@[simp] theorem ofIndex?_index (category : GeneralCategory) :
    ofIndex? category.index = some category := by
  cases category <;> rfl

@[simp] theorem ofName?_name (category : GeneralCategory) :
    ofName? category.name = some category := by
  cases category <;> decide

theorem index_lt (category : GeneralCategory) : category.index < 29 := by
  cases category <;> decide

end GeneralCategory

def CategoryGroup.all : List CategoryGroup :=
  [letter, mark, number, punctuation, separator, symbol, other]

end SchemaRegex.Unicode

/-!
# Text left to read

Readers compare places by the text left behind them. A text therefore carries its length, so that
a comparison takes no time. Two texts are the same if their characters are.
-/

namespace SchemaRegex.Pattern

structure Unread where
  chars : List Char
  size : Nat
  size_eq : size = chars.length
deriving DecidableEq, Repr

namespace Unread

def ofList (chars : List Char) : Unread := ⟨chars, chars.length, rfl⟩

def drop (n : Nat) (u : Unread) : Unread :=
  ⟨u.chars.drop n, u.size - n, by simp [u.size_eq]⟩

@[ext] theorem ext_chars {u v : Unread} (h : u.chars = v.chars) : u = v := by
  cases u
  cases v
  simp_all

@[simp] theorem ofList_chars (u : Unread) : ofList u.chars = u := ext_chars rfl

@[simp] theorem chars_ofList (cs : List Char) : (ofList cs).chars = cs := rfl

@[simp] theorem size_ofList (cs : List Char) : (ofList cs).size = cs.length := rfl

@[simp] theorem drop_ofList (n : Nat) (cs : List Char) :
    (ofList cs).drop n = ofList (cs.drop n) := ext_chars rfl

end Unread

end SchemaRegex.Pattern

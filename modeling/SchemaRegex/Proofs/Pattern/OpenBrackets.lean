import SchemaRegex.Proofs.Pattern.ClassText
import SchemaRegex.Proofs.Pattern.QuantityText

/-!
# Open brackets

Which brackets the front of a pattern leaves open is told by going through its characters once: behind a
backslash a character opens and closes nothing, and in a class expression parentheses do not. Escapes,
quantifiers and the items of a class expression leave nothing open.
-/

namespace SchemaRegex.Pattern

def Neutral (c : Char) : Prop := c ∉ ['\\', '[', ']', '(', ')']

instance (c : Char) : Decidable (Neutral c) :=
  inferInstanceAs (Decidable (c ∉ ['\\', '[', ']', '(', ')']))

/-- What a text leaves open: groups, class expressions in the innermost group, and a backslash. -/
structure Nesting where
  groups : Nat
  classes : Nat
  escaped : Bool

namespace Nesting

def start : Nesting := ⟨0, 0, false⟩

def step (o : Nesting) (c : Char) : Nesting :=
  if o.escaped then { o with escaped := false }
  else if c = '\\' then { o with escaped := true }
  else if c = '[' then { o with classes := o.classes + 1 }
  else if c = ']' then { o with classes := o.classes - 1 }
  else if o.classes ≠ 0 then o
  else if c = '(' then { o with groups := o.groups + 1 }
  else if c = ')' then { o with groups := o.groups - 1 }
  else o

def after (o : Nesting) (w : List Char) : Nesting := w.foldl step o

def count (o : Nesting) : Nat := o.groups + o.classes

def Outside (o : Nesting) : Prop := o.classes = 0 ∧ o.escaped = false

def Inside (o : Nesting) : Prop := o.classes ≠ 0 ∧ o.escaped = false

variable {o : Nesting}

@[simp] theorem after_nil : o.after [] = o := rfl

@[simp] theorem after_cons {c : Char} {w : List Char} : o.after (c :: w) = (o.step c).after w := rfl

@[simp] theorem after_append {u w : List Char} : o.after (u ++ w) = (o.after u).after w :=
  List.foldl_append

theorem step_opening (unescaped : o.escaped = false) :
    o.step '[' = { o with classes := o.classes + 1 } := by
  simp [step, unescaped]

theorem count_opening (unescaped : o.escaped = false) : (o.step '[').count = o.count + 1 := by
  rw [step_opening unescaped]
  exact (Nat.add_assoc _ _ _).symm

theorem step_closing (unescaped : o.escaped = false) :
    o.step ']' = { o with classes := o.classes - 1 } := by
  simp [step, unescaped]

theorem step_group (outside : o.Outside) : o.step '(' = { o with groups := o.groups + 1 } := by
  simp [step, outside.1, outside.2]

theorem count_group (outside : o.Outside) : (o.step '(').count = o.count + 1 := by
  rw [step_group outside]
  exact Nat.add_right_comm _ _ _

theorem step_groupEnd (outside : o.Outside) : o.step ')' = { o with groups := o.groups - 1 } := by
  simp [step, outside.1, outside.2]

theorem after_backslash (unescaped : o.escaped = false) (c : Char) : o.after ['\\', c] = o := by
  obtain ⟨groups, classes, escaped⟩ := o
  cases unescaped
  rfl

theorem step_of_neutral {c : Char} (unescaped : o.escaped = false) (neutral : Neutral c) :
    o.step c = o := by
  simp only [Neutral, List.mem_cons, List.not_mem_nil, or_false, not_or] at neutral
  simp [step, unescaped, neutral]

theorem Inside.step_of_not_mem {c : Char} (inside : o.Inside) (plain : c ∉ ['\\', '[', ']']) :
    o.step c = o := by
  simp only [List.mem_cons, List.not_mem_nil, or_false, not_or] at plain
  simp [step, inside.1, inside.2, plain]

theorem after_of_neutral {w : List Char} (unescaped : o.escaped = false)
    (neutral : ∀ c ∈ w, Neutral c) : o.after w = o := by
  induction w with
  | nil => rfl
  | cons c w ih =>
    rw [after_cons, step_of_neutral unescaped (neutral c List.mem_cons_self)]
    exact ih fun d member => neutral d (List.mem_cons_of_mem c member)

/-- A character opens at most one bracket, and only a bracket opens one. -/
theorem count_step_le (c : Char) :
    (o.step c).count ≤ o.count + ([c].count '(' + [c].count '[') := by
  unfold step count
  repeat' split
  all_goals simp_all
  all_goals omega

theorem count_after_le (w : List Char) :
    (o.after w).count ≤ o.count + (w.count '(' + w.count '[') := by
  induction w generalizing o with
  | nil => exact Nat.le_refl _
  | cons c w ih =>
    have first := count_step_le (o := o) c
    have rest := ih (o := o.step c)
    have split (x : Char) : (c :: w).count x = [c].count x + w.count x := by
      rw [← List.singleton_append, List.count_append]
    rw [after_cons, split, split]
    omega

end Nesting

def opened (text : List Char) : Nesting := Nesting.start.after text

def openBrackets (text : List Char) : Nat := (Nesting.start.after text).count

theorem opened_append (u w : List Char) : opened (u ++ w) = (opened u).after w := Nesting.after_append

open Nesting

variable {d : Dialect} {o : Nesting}

theorem CharEscape.after_eq {w : List Char} {c : Char} (escape : CharEscape d w c)
    (unescaped : o.escaped = false) : o.after w = o := by
  obtain ⟨e, same, _⟩ := escape.start
  rw [same, after_backslash unescaped]

theorem NameChar.neutral {c : Char} (letter : NameChar c) : Neutral c := by
  intro bracket
  simp only [List.mem_cons, List.not_mem_nil, or_false] at bracket
  obtain same | same | same | same | same := bracket <;>
    rw [same] at letter <;> revert letter <;> unfold NameChar <;> decide

theorem nameChar_of_mem_categoryNames {name : String} (member : name ∈ Unicode.categoryNames) :
    ∀ c ∈ name.toList, NameChar c := by
  obtain ⟨group, form⟩ := Unicode.letters_of_mem_categoryNames member
  have table : (group.name.toList ++ group.letters).all Char.isAlphanum = true := by
    cases group <;> decide
  have letters : ∀ c ∈ name.toList, c ∈ group.name.toList ++ group.letters := by
    intro c inside
    obtain same | ⟨e, letter, same⟩ := form
    · exact List.mem_append_left _ (same ▸ inside)
    · rw [same, String.toList_ofList, List.mem_append, List.mem_singleton] at inside
      exact List.mem_append.mpr (inside.imp id fun last => by rw [last]; exact letter)
  exact fun c inside => .inl (List.all_eq_true.mp table c (letters c inside))

theorem PropertyText.nameChar {w : List Char} {set : CodepointSet} (text : PropertyText d w set) :
    ∀ c ∈ w, NameChar c := by
  have block {name : List Char} (letters : ∀ c ∈ name, NameChar c) :
      ∀ c ∈ 'I' :: 's' :: name, NameChar c :=
    List.forall_mem_cons.mpr ⟨.inl (by decide), List.forall_mem_cons.mpr ⟨.inl (by decide), letters⟩⟩
  cases text with
  | category member => exact nameChar_of_mem_categoryNames member
  | block _ letters => exact block letters
  | unknownBlock _ _ letters => exact block letters

theorem ClassEscape.after_eq {w : List Char} {set : CodepointSet} (escape : ClassEscape d w set)
    (unescaped : o.escaped = false) : o.after w = o := by
  have named {letter : Char} {u : List Char} {set : CodepointSet} (text : PropertyText d u set) :
      o.after ('\\' :: letter :: '{' :: u ++ ['}']) = o := by
    have braces : ∀ c ∈ '{' :: u ++ ['}'], Neutral c := by
      simp only [List.cons_append, List.forall_mem_cons, List.forall_mem_append]
      exact ⟨by decide, fun c member => (text.nameChar c member).neutral, by decide, List.forall_mem_nil _⟩
    have split : '\\' :: letter :: '{' :: u ++ ['}'] = ['\\', letter] ++ ('{' :: u ++ ['}']) := rfl
    rw [split, after_append, after_backslash unescaped, after_of_neutral unescaped braces]
  cases escape with
  | letter => exact after_backslash unescaped _
  | property text => exact named text
  | complement text => exact named text

theorem ClassCharText.after_eq {w : List Char} {c : Char} (text : ClassCharText d w c)
    (inside : o.Inside) : o.after w = o := by
  cases text with
  | escaped escape => exact escape.after_eq inside.2
  | unescaped plain => exact inside.step_of_not_mem plain

theorem Item.after_eq {after single : Bool} {t v : List Char} {set : CodepointSet}
    (item : Item d after t set single v) :
    ∃ w, t = w ++ v ∧ ∀ o : Nesting, o.Inside → o.after w = o := by
  cases item with
  | @single w _ _ text => exact ⟨w, rfl, fun o inside => text.after_eq inside⟩
  | @range u w _ _ _ first last =>
    refine ⟨u ++ '-' :: w, rfl, fun o inside => ?_⟩
    rw [after_append, first.after_eq inside, after_cons, inside.step_of_not_mem (by decide),
      last.after_eq inside]
  | @escape w _ _ text => exact ⟨w, rfl, fun o inside => text.after_eq inside.2⟩

theorem Items.after_eq {after : Bool} {t v : List Char} {sets : List CodepointSet}
    (items : Items d after t sets v) :
    ∃ w, t = w ++ v ∧ ∀ o : Nesting, o.Inside → o.after w = o := by
  induction items with
  | last item => exact item.after_eq
  | more item _ _ ih =>
    obtain ⟨u, front, first⟩ := item.after_eq
    obtain ⟨w, rest, others⟩ := ih
    refine ⟨u ++ w, by rw [front, rest, List.append_assoc], fun o inside => ?_⟩
    rw [after_append, first o inside, others o inside]

theorem inside_opening (unescaped : o.escaped = false) : (o.step '[').Inside := by
  rw [step_opening unescaped]
  exact ⟨Nat.succ_ne_zero _, unescaped⟩

theorem step_closing_opening (unescaped : o.escaped = false) : (o.step '[').step ']' = o := by
  rw [step_closing (inside_opening unescaped).2, step_opening unescaped]
  rfl

theorem neutral_of_digit {c : Char} (digit : '0' ≤ c ∧ c ≤ '9') : Neutral c := by
  intro bracket
  simp only [List.mem_cons, List.not_mem_nil, or_false] at bracket
  obtain same | same | same | same | same := bracket <;> rw [same] at digit <;> revert digit <;> decide

theorem QuantifierText.after_eq {w : List Char} {q : Quantifier} (text : QuantifierText d w q)
    (unescaped : o.escaped = false) : o.after w = o :=
  after_of_neutral unescaped (text.forall_mem (fun _ => neutral_of_digit) (by simp [Neutral]))

theorem step_of_plain {c : Char} (plain : c ∉ d.metacharacters) (unescaped : o.escaped = false) :
    o.step c = o := by
  refine step_of_neutral unescaped fun bracket => plain (mem_metacharacters_of_xsd ?_)
  have all : ∀ c ∈ ['\\', '[', ']', '(', ')'], c ∈ Dialect.xsd.metacharacters := by
    simp [metacharacters_xsd]
  exact all c bracket

theorem outside_group (outside : o.Outside) : (o.step '(').Outside := by
  rw [step_group outside]
  exact outside

theorem step_groupEnd_group (outside : o.Outside) : (o.step '(').step ')' = o := by
  rw [step_groupEnd (outside_group outside), step_group outside]
  rfl

end SchemaRegex.Pattern

import SchemaRegex.Proofs.Pattern.OpenBrackets
import SchemaRegex.Proofs.Pattern.PatternSyntax

/-!
# Anchors in a text

In XPath `^` and `$` are anchors where no class expression is open and no backslash stands before them.
This is told by going through the characters of a pattern once. Escapes, quantifiers and class
expressions have no anchors (`Nesting.Silent`).
-/

namespace SchemaRegex.Pattern

def anchorOf (d : Dialect) (c : Char) : List Nat :=
  if d = .xpath ∧ c = '^' then [startMark]
  else if d = .xpath ∧ c = '$' then [endMark]
  else []

namespace Nesting

instance (o : Nesting) : Decidable o.Outside :=
  inferInstanceAs (Decidable (o.classes = 0 ∧ o.escaped = false))

def anchors (d : Dialect) (o : Nesting) : List Char → List Nat
  | [] => []
  | c :: w => (if o.Outside then anchorOf d c else []) ++ (o.step c).anchors d w

structure Anchored (d : Dialect) (o : Nesting) (w : List Char) (marks : List Nat) : Prop where
  after : o.after w = o
  anchors : o.anchors d w = marks

abbrev Silent (d : Dialect) (o : Nesting) (w : List Char) : Prop := Anchored d o w []

variable {d : Dialect} {o : Nesting} {u w : List Char} {marks : List Nat}

theorem anchors_append : o.anchors d (u ++ w) = o.anchors d u ++ (o.after u).anchors d w := by
  induction u generalizing o with
  | nil => rfl
  | cons c u ih =>
    rw [List.cons_append, anchors, ih, anchors, after_cons, List.append_assoc]

theorem anchors_eq_nil (none : ∀ c ∈ w, anchorOf d c = []) : o.anchors d w = [] := by
  induction w generalizing o with
  | nil => rfl
  | cons c w ih =>
    simp only [List.forall_mem_cons] at none
    rw [anchors, none.1, ih none.2, ite_self, List.append_nil]

theorem Anchored.append {more : List Nat} (first : Anchored d o u marks) (second : Anchored d o w more) :
    Anchored d o (u ++ w) (marks ++ more) where
  after := by rw [after_append, first.after, second.after]
  anchors := by rw [anchors_append, first.anchors, first.after, second.anchors]

theorem silent_nil : Silent d o [] := ⟨rfl, rfl⟩

/-- The character behind a backslash is no anchor. -/
theorem silent_escape (unescaped : o.escaped = false) (c : Char) : Silent d o ['\\', c] where
  after := after_backslash unescaped c
  anchors := by
    have escaped : ¬ (o.step '\\').Outside := by simp [step, unescaped, Outside]
    have backslash : anchorOf d '\\' = [] := by simp [anchorOf]
    rw [anchors, backslash, anchors, if_neg escaped, ite_self]
    rfl

theorem Outside.anchored_char {c : Char} (outside : o.Outside) (keeps : o.step c = o) :
    Anchored d o [c] (anchorOf d c) where
  after := keeps
  anchors := by rw [anchors, if_pos outside, anchors, List.append_nil]

theorem Anchored.group (outside : o.Outside) (inside : Anchored d (o.step '(') w marks) :
    Anchored d o ('(' :: w ++ [')']) marks where
  after := by
    rw [List.cons_append, after_cons, after_append, inside.after, after_cons,
      step_groupEnd_group outside, after_nil]
  anchors := by
    have none (c : Char) (bracket : c ∈ ['(', ')']) : anchorOf d c = [] := by
      obtain same | same : c = '(' ∨ c = ')' := by simpa using bracket
      all_goals simp [anchorOf, same]
    rw [List.cons_append, Nesting.anchors, none '(' (by simp), ite_self, List.nil_append,
      anchors_append, inside.anchors, inside.after, Nesting.anchors, none ')' (by simp), ite_self,
      Nesting.anchors, List.append_nil, List.append_nil]

theorem Inside.not_outside (inside : o.Inside) : ¬ o.Outside := fun outside => inside.1 outside.1

/-- In a class expression nothing is an anchor. -/
theorem Inside.silent_char {c : Char} (inside : o.Inside) (plain : c ∉ ['\\', '[', ']']) :
    Silent d o [c] where
  after := inside.step_of_not_mem plain
  anchors := by rw [anchors, if_neg inside.not_outside, anchors, List.append_nil]

theorem Anchored.bracketed (unescaped : o.escaped = false) (silent : Silent d (o.step '[') w) :
    Silent d o ('[' :: w ++ [']']) where
  after := by
    rw [List.cons_append, after_cons, after_append, silent.after, after_cons,
      step_closing_opening unescaped, after_nil]
  anchors := by
    have opening : anchorOf d '[' = [] := by simp [anchorOf]
    rw [List.cons_append, Nesting.anchors, opening, ite_self, List.nil_append, anchors_append,
      silent.anchors, silent.after, List.nil_append, Nesting.anchors,
      if_neg (inside_opening unescaped).not_outside]
    rfl

end Nesting

open Nesting

variable {d : Dialect} {o : Nesting}

theorem CharEscape.silent {w : List Char} {c : Char} (escape : CharEscape d w c)
    (unescaped : o.escaped = false) : Silent d o w := by
  obtain ⟨e, same, _⟩ := escape.start
  rw [same]
  exact silent_escape unescaped e

theorem NameChar.anchorOf_eq_nil {c : Char} (letter : NameChar c) : anchorOf d c = [] := by
  have other : c ≠ '^' ∧ c ≠ '$' := by
    constructor <;> intro same <;> rw [same] at letter <;> revert letter <;> unfold NameChar <;> decide
  simp [anchorOf, other]

theorem ClassEscape.silent {w : List Char} {set : CodepointSet} (escape : ClassEscape d w set)
    (unescaped : o.escaped = false) : Silent d o w := by
  have named {letter : Char} {u : List Char} {set : CodepointSet} (text : PropertyText d u set) :
      o.anchors d (['\\', letter] ++ ('{' :: u ++ ['}'])) = [] := by
    -- The characters in braces are anchors nowhere.
    have braces : ∀ c ∈ '{' :: u ++ ['}'], anchorOf d c = [] := by
      simp only [List.cons_append, List.forall_mem_cons, List.forall_mem_append]
      exact ⟨by simp [anchorOf], fun c member => (text.nameChar c member).anchorOf_eq_nil,
        by simp [anchorOf], List.forall_mem_nil _⟩
    rw [anchors_append, (silent_escape unescaped letter).anchors, anchors_eq_nil braces,
      List.append_nil]
  refine ⟨escape.after_eq unescaped, ?_⟩
  cases escape with
  | letter => exact (silent_escape unescaped _).anchors
  | property text => exact named text
  | complement text => exact named text

theorem QuantifierText.silent {w : List Char} {q : Quantifier} (text : QuantifierText d w q)
    (unescaped : o.escaped = false) : Silent d o w where
  after := text.after_eq unescaped
  anchors := by
    refine anchors_eq_nil (text.forall_mem (fun c digit => ?_) (by simp [anchorOf]))
    have other : c ≠ '^' ∧ c ≠ '$' := by
      constructor <;> intro same <;> rw [same] at digit <;> revert digit <;> decide
    simp [anchorOf, other]

theorem ClassCharText.silent {w : List Char} {c : Char} (text : ClassCharText d w c)
    (inside : o.Inside) : Silent d o w := by
  cases text with
  | escaped escape => exact escape.silent inside.2
  | unescaped plain => exact inside.silent_char plain

theorem ClassItem.silent {item : ClassItem} (formed : item.WellFormed d) (inside : o.Inside) :
    Silent d o item.text := by
  cases item with
  | single w c => exact ClassCharText.silent formed inside
  | range u a w b =>
    obtain ⟨first, last, _⟩ := formed
    exact (first.silent inside).append ((inside.silent_char (by decide)).append (last.silent inside))
  | escape w set => exact ClassEscape.silent formed inside.2

theorem silent_itemsText {items : List ClassItem} (formed : ∀ item ∈ items, item.WellFormed d)
    (inside : o.Inside) : Silent d o (itemsText items) := by
  induction items with
  | nil => exact silent_nil
  | cons item items ih =>
    simp only [List.forall_mem_cons] at formed
    exact (ClassItem.silent formed.1 inside).append (ih formed.2)

theorem ClassGroup.silent {g : ClassGroup} {behind : List Char} (formed : g.WellFormed d behind)
    (inside : o.Inside) : Silent d o g.text := by
  have items := silent_itemsText formed.items inside
  unfold ClassGroup.text
  split
  · exact (inside.silent_char (by decide)).append items
  · exact items

theorem ClassSyntax.silent {e : ClassSyntax} (formed : e.WellFormed d) (unescaped : o.escaped = false) :
    Silent d o e.text := by
  induction e generalizing o with
  | plain group => exact .bracketed unescaped (ClassGroup.silent formed (inside_opening unescaped))
  | minus group except ih =>
    obtain ⟨groupFormed, exceptFormed⟩ := formed
    have inside := inside_opening unescaped
    have minus : Silent d (o.step '[') ('-' :: except.text) :=
      (inside.silent_char (by decide)).append (ih exceptFormed inside.2)
    have whole := Anchored.bracketed unescaped ((ClassGroup.silent groupFormed inside).append minus)
    simpa [ClassSyntax.text] using whole

end SchemaRegex.Pattern

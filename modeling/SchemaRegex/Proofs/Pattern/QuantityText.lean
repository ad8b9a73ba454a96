import SchemaRegex.Pattern.Quantity
import SchemaRegex.Proofs.Pattern.Recovery
import SchemaRegex.Proofs.Text.Numeral

/-!
# The text of a quantifier

Quantifiers as texts with their bounds. The reader takes such a text; in XPath no other question mark
may follow it (`quantifierText_of_takes`, `takes_quantifier`).
-/

namespace SchemaRegex.Pattern

open Reader

structure Bound (w : List Char) (n : Nat) : Prop where
  nonempty : w ≠ []
  digits : ∀ c ∈ w, '0' ≤ c ∧ c ≤ '9'
  value : n = Text.valueOf 10 w
  fits : n < 4294967296

inductive QuantityText : List Char → Quantifier → Prop
  | exactly {w : List Char} {n : Nat} (bound : Bound w n) : QuantityText w ⟨n, some n⟩
  | atLeast {w : List Char} {n : Nat} (bound : Bound w n) : QuantityText (w ++ [',']) ⟨n, none⟩
  | between {u w : List Char} {n m : Nat} (least : Bound u n) (most : Bound w m) (inOrder : n ≤ m) :
    QuantityText (u ++ ',' :: w) ⟨n, some m⟩

inductive GreedyText : List Char → Quantifier → Prop
  | optional : GreedyText ['?'] ⟨0, some 1⟩
  | star : GreedyText ['*'] ⟨0, none⟩
  | plus : GreedyText ['+'] ⟨1, none⟩
  | counted {w : List Char} {q : Quantifier} (quantity : QuantityText w q) :
    GreedyText ('{' :: w ++ ['}']) q

inductive QuantifierText (d : Dialect) : List Char → Quantifier → Prop
  | greedy {w : List Char} {q : Quantifier} (text : GreedyText w q) : QuantifierText d w q
  | reluctant {w : List Char} {q : Quantifier} (xpath : d = .xpath) (text : GreedyText w q) :
    QuantifierText d (w ++ ['?']) q

theorem Bound.le_maxWord {w : List Char} {n : Nat} (bound : Bound w n) : n ≤ Text.maxWord :=
  Nat.le_of_lt_succ bound.fits

structure Fits (q : Quantifier) : Prop where
  least : q.min ≤ Text.maxWord
  most : ∀ max ∈ q.max, q.min ≤ max ∧ max ≤ Text.maxWord

/-- No text stands for bounds out of order or beyond 32 bits. -/
theorem QuantifierText.fits {d : Dialect} {w : List Char} {q : Quantifier}
    (text : QuantifierText d w q) : Fits q := by
  have greedy {w : List Char} (text : GreedyText w q) : Fits q := by
    cases text with
    | optional => exact ⟨by decide, fun max same => by cases same; decide⟩
    | star => exact ⟨by decide, fun max none => by cases none⟩
    | plus => exact ⟨by decide, fun max none => by cases none⟩
    | counted text =>
      cases text with
      | exactly bound =>
        refine ⟨bound.le_maxWord, fun max same => ?_⟩
        cases same
        exact ⟨Nat.le_refl _, bound.le_maxWord⟩
      | atLeast bound => exact ⟨bound.le_maxWord, fun max none => by cases none⟩
      | between least most ordered =>
        refine ⟨least.le_maxWord, fun max same => ?_⟩
        cases same
        exact ⟨ordered, most.le_maxWord⟩
  cases text with
  | greedy text => exact greedy text
  | reluctant _ text => exact greedy text

/-- The characters of a quantifier are digits and signs. -/
theorem QuantifierText.forall_mem {d : Dialect} {w : List Char} {q : Quantifier} {P : Char → Prop}
    (text : QuantifierText d w q) (digits : ∀ c, '0' ≤ c ∧ c ≤ '9' → P c)
    (signs : ∀ c ∈ ['?', '*', '+', '{', ',', '}'], P c) : ∀ c ∈ w, P c := by
  have sign {c : Char} (member : c ∈ ['?', '*', '+', '{', ',', '}']) : ∀ e ∈ [c], P e :=
    List.forall_mem_singleton.mpr (signs c member)
  have bound {w : List Char} {n : Nat} (bound : Bound w n) : ∀ c ∈ w, P c :=
    fun c member => digits c (bound.digits c member)
  have quantity {w : List Char} {q : Quantifier} (text : QuantityText w q) : ∀ c ∈ w, P c := by
    cases text with
    | exactly number => exact bound number
    | atLeast number => exact List.forall_mem_append.mpr ⟨bound number, sign (by decide)⟩
    | between least most =>
      exact List.forall_mem_append.mpr
        ⟨bound least, List.forall_mem_cons.mpr ⟨signs ',' (by decide), bound most⟩⟩
  have greedy {w : List Char} {q : Quantifier} (text : GreedyText w q) : ∀ c ∈ w, P c := by
    cases text with
    | optional | star | plus => exact sign (by decide)
    | counted text =>
      exact List.forall_mem_append.mpr
        ⟨List.forall_mem_cons.mpr ⟨signs '{' (by decide), quantity text⟩, sign (by decide)⟩
  cases text with
  | greedy text => exact greedy text
  | reluctant _ text => exact List.forall_mem_append.mpr ⟨greedy text, sign (by decide)⟩

theorem readNumeral?_of_digits {w : List Char} (nonempty : w ≠ [])
    (digits : ∀ c ∈ w, '0' ≤ c ∧ c ≤ '9') :
    Text.readNumeral? 10 w =
      if Text.valueOf 10 w ≤ Text.maxWord then some (Text.valueOf 10 w) else none := by
  have all : (w.all fun c => (Text.digitValue? 10 c).isSome) = true :=
    List.all_eq_true.mpr fun c member => Text.isSome_digitValue?_ten_iff.mpr (digits c member)
  unfold Text.readNumeral?
  split
  · have sign : ¬ ('0' ≤ '+' ∧ '+' ≤ '9') := by decide
    exact absurd (digits '+' List.mem_cons_self) sign
  · simp only [all, nonempty, Bool.not_true, Bool.false_eq_true, or_self, if_false]

theorem takes_digits {t v w : List Char} :
    (consumed digit.many1).Takes t w v ↔ t = w ++ v ∧ w ≠ [] ∧
      (∀ c ∈ w, '0' ≤ c ∧ c ≤ '9') ∧ ∀ c ∈ v.head?, ¬ ('0' ≤ c ∧ c ≤ '9') := by
  simp only [digit, takes_consumed_satisfying, decide_eq_true_eq, decide_eq_false_iff_not]

theorem takes_bound {s : Settings} {t v : List Char} {n : Nat} :
    (bound s).Takes t n v ↔
      ∃ w, t = w ++ v ∧ Bound w n ∧ ∀ c ∈ v.head?, ¬ ('0' ≤ c ∧ c ≤ '9') := by
  simp only [bound, takes_resolve, takes_digits]
  constructor
  · intro given
    obtain ⟨w, ⟨same, nonempty, digits, stops⟩, value⟩ := given
    rw [readNumeral?_of_digits nonempty digits] at value
    split at value
    · rename_i numeral
      split at numeral
      · cases numeral
        cases value
        rename_i fits
        exact ⟨w, same, ⟨nonempty, digits, rfl, Nat.lt_succ_of_le fits⟩, stops⟩
      · cases numeral
    · cases value
  · intro given
    obtain ⟨w, same, numeral, stops⟩ := given
    refine ⟨w, ⟨same, numeral.nonempty, numeral.digits, stops⟩, ?_⟩
    have fits : Text.valueOf 10 w ≤ Text.maxWord := Nat.le_of_lt_succ (numeral.value ▸ numeral.fits)
    rw [readNumeral?_of_digits numeral.nonempty numeral.digits, if_pos fits, ← numeral.value]

theorem rejects_bound {s : Settings} {t : List Char}
    (other : ∀ c ∈ t.head?, ¬ ('0' ≤ c ∧ c ≤ '9')) : (bound s).Rejects t := by
  apply Rejects.resolve
  rw [rejects_consumed]
  apply Rejects.many1
  refine (recovers_anyChar.satisfying _ _).rejects_iff.mpr fun c v takes => ?_
  obtain ⟨same, passes⟩ := takes_satisfying.mp takes
  rw [takes_anyChar.mp same] at other
  exact other c rfl (of_decide_eq_true passes)

theorem boundsInOrder_eq_ok {n m : Nat} {q : Quantifier} :
    boundsInOrder (n, m) = .ok q ↔ n ≤ m ∧ q = ⟨n, some m⟩ := by
  by_cases less : m < n
  · simp only [boundsInOrder, if_pos less, reduceCtorEq, false_iff, not_and]
    omega
  · simp only [boundsInOrder, if_neg less, Except.ok.injEq, Nat.le_of_not_lt less, true_and]
    exact eq_comm

theorem notDigit_comma (v : List Char) : ∀ c ∈ (',' :: v).head?, ¬ ('0' ≤ c ∧ c ≤ '9') := by
  intro c head
  cases head
  decide

theorem notDigit_closing (v : List Char) : ∀ c ∈ ('}' :: v).head?, ¬ ('0' ≤ c ∧ c ≤ '9') := by
  intro c head
  cases head
  decide

theorem takes_quantity {s : Settings} {t v : List Char} {q : Quantifier} :
    (quantity s).Takes t q ('}' :: v) ↔ ∃ w, t = w ++ '}' :: v ∧ QuantityText w q := by
  constructor
  · intro takes
    obtain ⟨p, member, takes⟩ := exists_of_takes_firstOf takes
    simp only [List.mem_cons, List.not_mem_nil, or_false] at member
    obtain same | same | same := member <;> rw [same] at takes
    · obtain ⟨⟨n, m⟩, takes, value⟩ := takes_resolve.mp takes
      obtain ⟨ordered, value⟩ := boundsInOrder_eq_ok.mp value
      obtain ⟨x, first, rest⟩ := takes_pair.mp takes
      obtain ⟨_, y, comma, second⟩ := takes_skipThen.mp rest
      obtain ⟨u, same, least, _⟩ := takes_bound.mp first
      obtain ⟨w, more, most, _⟩ := takes_bound.mp second
      rw [takes_token] at comma
      subst same comma more value
      exact ⟨u ++ ',' :: w, by simp, .between least most ordered⟩
    · obtain ⟨n, takes, value⟩ := takes_map.mp takes
      obtain ⟨x, first, _, comma⟩ := takes_thenSkip.mp takes
      obtain ⟨u, same, least, _⟩ := takes_bound.mp first
      rw [takes_token] at comma
      subst same comma value
      exact ⟨u ++ [','], by simp, .atLeast least⟩
    · obtain ⟨n, takes, value⟩ := takes_map.mp takes
      obtain ⟨u, same, exactly, _⟩ := takes_bound.mp takes
      subst value
      exact ⟨u, same, .exactly exactly⟩
  · intro given
    obtain ⟨w, same, text⟩ := given
    subst same
    cases text with
    | @exactly _ n numeral =>
      have first : (bound s).Takes (w ++ '}' :: v) n ('}' :: v) :=
        takes_bound.mpr ⟨w, rfl, numeral, notDigit_closing v⟩
      have noComma : (token ",").Rejects ('}' :: v) := rejects_token.mpr (by simp)
      refine takes_firstOf_after (rfl : _ = [_, _] ++ _ :: _) ?_ (takes_map.mpr ⟨n, first, rfl⟩)
      simp only [List.forall_mem_cons, rejects_map]
      refine ⟨Rejects.resolve ?_, ?_, List.forall_mem_nil _⟩
      · exact rejects_pair.mpr (.inr ⟨n, _, first, rejects_skipThen.mpr (.inl noComma)⟩)
      · exact rejects_thenSkip.mpr (.inr ⟨n, _, first, noComma⟩)
    | @atLeast u n numeral =>
      have first : (bound s).Takes (u ++ [','] ++ '}' :: v) n (',' :: '}' :: v) :=
        takes_bound.mpr ⟨u, by simp, numeral, notDigit_comma _⟩
      have comma : (token ",").Takes (',' :: '}' :: v) () ('}' :: v) := by simp
      refine takes_firstOf_after (rfl : _ = [_] ++ _ :: _)
        (List.forall_mem_singleton.mpr (Rejects.resolve ?_))
        (takes_map.mpr ⟨n, takes_thenSkip.mpr ⟨_, first, (), comma⟩, rfl⟩)
      refine rejects_pair.mpr (.inr ⟨n, _, first, rejects_skipThen.mpr (.inr ⟨(), _, comma, ?_⟩)⟩)
      exact rejects_bound (notDigit_closing v)
    | @between u w n m least most ordered =>
      refine takes_firstOf_after (rfl : _ = [] ++ _ :: _) (List.forall_mem_nil _)
        (takes_resolve.mpr ⟨(n, m), takes_pair.mpr ⟨',' :: w ++ '}' :: v, ?_, ?_⟩,
          boundsInOrder_eq_ok.mpr ⟨ordered, rfl⟩⟩)
      · exact takes_bound.mpr ⟨u, by simp, least, notDigit_comma _⟩
      · refine takes_skipThen.mpr ⟨(), w ++ '}' :: v, by simp, ?_⟩
        exact takes_bound.mpr ⟨w, rfl, most, notDigit_closing v⟩

theorem takes_greedyQuantifier {s : Settings} {t v : List Char} {q : Quantifier} :
    (greedyQuantifier s).Takes t q v ↔ ∃ w, t = w ++ v ∧ GreedyText w q := by
  constructor
  · intro takes
    obtain ⟨p, member, takes⟩ := exists_of_takes_firstOf takes
    simp only [List.mem_cons, List.not_mem_nil, or_false] at member
    obtain same | same | same | same := member <;> rw [same] at takes
    · obtain ⟨⟨_, front⟩, value⟩ := takes_as.mp takes
      rw [takes_token] at front
      exact ⟨['?'], by simp [front], value ▸ .optional⟩
    · obtain ⟨⟨_, front⟩, value⟩ := takes_as.mp takes
      rw [takes_token] at front
      exact ⟨['*'], by simp [front], value ▸ .star⟩
    · obtain ⟨⟨_, front⟩, value⟩ := takes_as.mp takes
      rw [takes_token] at front
      exact ⟨['+'], by simp [front], value ▸ .plus⟩
    · obtain ⟨u, front, inside⟩ := takes_delimited.mp takes
      obtain ⟨w, same, text⟩ := takes_quantity.mp (by simpa using inside)
      exact ⟨'{' :: w ++ ['}'], by simp [front, same], .counted text⟩
  · intro given
    obtain ⟨w, same, text⟩ := given
    subst same
    cases text with
    | optional =>
      exact takes_firstOf_after (rfl : _ = [] ++ _ :: _) (List.forall_mem_nil _) (by simp)
    | star =>
      refine takes_firstOf_after (rfl : _ = [_] ++ _ :: _) ?_
        (takes_as.mpr ⟨⟨(), takes_token.mpr (by simp)⟩, rfl⟩)
      simp [rejects_token]
    | plus =>
      refine takes_firstOf_after (rfl : _ = [_, _] ++ _ :: _) ?_
        (takes_as.mpr ⟨⟨(), takes_token.mpr (by simp)⟩, rfl⟩)
      simp [rejects_token]
    | @counted w _ quantity =>
      refine takes_firstOf_after (rfl : _ = [_, _, _] ++ _ :: _) ?_
        (takes_delimited.mpr ⟨w ++ '}' :: v, by simp, ?_⟩)
      · simp [rejects_token]
      · simpa using takes_quantity.mpr ⟨w, rfl, quantity⟩

def StartsQuantifier (t : List Char) : Prop := ∃ c ∈ t.head?, c ∈ ['?', '*', '+', '{']

theorem rejects_greedyQuantifier {s : Settings} {t : List Char} (other : ¬ StartsQuantifier t) :
    (greedyQuantifier s).Rejects t := by
  have fails (text : String) (c : Char) (one : text.toList = [c]) (start : c ∈ ['?', '*', '+', '{']) :
      ¬ text.toList <+: t := by
    intro given
    obtain ⟨u, same⟩ := given
    rw [one] at same
    exact other ⟨c, by rw [← same]; rfl, start⟩
  apply rejects_firstOf
  intro p member
  simp only [List.mem_cons, List.not_mem_nil, or_false] at member
  obtain same | same | same | same := member <;> rw [same]
  · exact rejects_as.mpr (rejects_token.mpr (fails "?" '?' (by simp) (by simp)))
  · exact rejects_as.mpr (rejects_token.mpr (fails "*" '*' (by simp) (by simp)))
  · exact rejects_as.mpr (rejects_token.mpr (fails "+" '+' (by simp) (by simp)))
  · exact rejects_delimited (fails "\x7b" '{' (by simp) (by simp))

theorem rejects_quantifier {s : Settings} {t : List Char} (other : ¬ StartsQuantifier t) :
    (quantifier s).Rejects t := by
  have greedy := rejects_greedyQuantifier (s := s) other
  unfold quantifier
  cases s.dialect with
  | xsd => exact greedy
  | xpath => exact rejects_thenSkip.mpr (.inl greedy)

theorem quantifierText_of_takes {s : Settings} {t v : List Char} {q : Quantifier}
    (takes : (quantifier s).Takes t q v) : ∃ w, t = w ++ v ∧ QuantifierText s.dialect w q := by
  unfold quantifier at takes
  cases dialect : s.dialect with
  | xsd =>
    rw [dialect] at takes
    obtain ⟨w, same, text⟩ := takes_greedyQuantifier.mp takes
    exact ⟨w, same, .greedy text⟩
  | xpath =>
    rw [dialect] at takes
    obtain ⟨u, takes, mark, ends⟩ := takes_thenSkip.mp takes
    obtain ⟨w, same, text⟩ := takes_greedyQuantifier.mp takes
    cases mark with
    | none =>
      obtain ⟨_, more⟩ := takes_opt_none.mp ends
      exact ⟨w, by rw [same, more], .greedy text⟩
    | some _ =>
      have more := takes_token.mp (takes_opt_some.mp ends)
      exact ⟨w ++ ['?'], by simp [same, more], .reluctant rfl text⟩

theorem takes_quantifier {s : Settings} {w v : List Char} {q : Quantifier}
    (text : QuantifierText s.dialect w q) (ends : ¬ StartsQuantifier v) :
    (quantifier s).Takes (w ++ v) q v := by
  have noMark : (token "?").Rejects v := by
    refine rejects_token.mpr fun front => ends ⟨'?', ?_, by simp⟩
    obtain ⟨u, same⟩ := front
    rw [← same]
    simp
  unfold quantifier
  cases dialect : s.dialect with
  | xsd =>
    rw [dialect] at text
    cases text with
    | greedy text => exact takes_greedyQuantifier.mpr ⟨w, rfl, text⟩
    | reluctant xpath => cases xpath
  | xpath =>
    rw [dialect] at text
    cases text with
    | greedy text =>
      exact takes_thenSkip.mpr ⟨v, takes_greedyQuantifier.mpr ⟨w, rfl, text⟩, none,
        takes_opt_none.mpr ⟨noMark, rfl⟩⟩
    | @reluctant w _ _ text =>
      exact takes_thenSkip.mpr ⟨'?' :: v, takes_greedyQuantifier.mpr ⟨w, by simp, text⟩, some (),
        takes_opt_some.mpr (by simp)⟩

end SchemaRegex.Pattern

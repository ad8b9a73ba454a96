import SchemaRegex.Pattern.ClassExpression
import SchemaRegex.Proofs.Pattern.EscapeText

/-!
# The text of a class expression

The items of a class expression as relations between the text from a place on, what is read there,
and the text behind it. What an item is depends on the text behind it by at most two characters, and
a class expression ends with a bracket; so nothing depends on what follows it
(`ClassText.change_rest`). The reader takes exactly these texts (`takes_classExpr`).
-/

namespace SchemaRegex.Pattern

open Reader

inductive ClassCharText (d : Dialect) : List Char → Char → Prop
  | escaped {w : List Char} {c : Char} (escape : CharEscape d w c) : ClassCharText d w c
  | unescaped {c : Char} (plain : c ∉ ['\\', '[', ']']) : ClassCharText d [c] c

def Ends (t : List Char) : Prop := ['-', '['] <+: t ∨ [']'] <+: t

def RangeAhead (t : List Char) : Prop := ∃ c v, t = '-' :: c :: v ∧ c ≠ '[' ∧ c ≠ ']'

/-- A character, a range or an escape; whether it is a single character, and whether it comes behind
one. -/
inductive Item (d : Dialect) : Bool → List Char → CodepointSet → Bool → List Char → Prop
  | single {after : Bool} {w v : List Char} {c : Char} (text : ClassCharText d w c)
    (noRange : ¬ RangeAhead v) (hyphen : after = true → w = ['-'] → Ends v) :
    Item d after (w ++ v) (.singleton c.toNat) true v
  | range {after : Bool} {u w v : List Char} {a b : Char} (first : ClassCharText d u a)
    (last : ClassCharText d w b) (firstNoHyphen : u ≠ ['-']) (lastNoHyphen : w ≠ ['-'])
    (ordered : a.toNat ≤ b.toNat) :
    Item d after (u ++ '-' :: w ++ v) (.ofRanges [⟨a.toNat, b.toNat⟩]) false v
  | escape {after : Bool} {w v : List Char} {set : CodepointSet} (text : ClassEscape d w set) :
    Item d after (w ++ v) set false v

inductive Items (d : Dialect) : Bool → List Char → List CodepointSet → List Char → Prop
  | last {after single : Bool} {t v : List Char} {set : CodepointSet}
    (item : Item d after t set single v) (ends : Ends v) : Items d after t [set] v
  | more {after single : Bool} {t u v : List Char} {set : CodepointSet} {sets : List CodepointSet}
    (item : Item d after t set single u) (goesOn : ¬ Ends u) (others : Items d single u sets v) :
    Items d after t (set :: sets) v

inductive Group (d : Dialect) : List Char → CodepointSet → List Char → Prop
  | positive {t v : List Char} {sets : List CodepointSet} (start : ¬ ['^'] <+: t)
    (items : Items d false t sets v) : Group d t (.unionAll sets) v
  | negative {t v : List Char} {sets : List CodepointSet} (items : Items d false t sets v) :
    Group d ('^' :: t) (CodepointSet.unionAll sets).complement v

inductive ClassText (d : Dialect) : Nat → List Char → CodepointSet → List Char → Prop
  | group {n : Nat} {t v : List Char} {set : CodepointSet} (group : Group d t set (']' :: v)) :
    ClassText d (n + 1) ('[' :: t) set v
  | minus {n : Nat} {t u v : List Char} {set except : CodepointSet} (group : Group d t set ('-' :: u))
    (subtracted : ClassText d n u except (']' :: v)) :
    ClassText d (n + 1) ('[' :: t) (set.diff except) v

def SameEnd (u v : List Char) : Prop :=
  [']'] <+: u ∧ [']'] <+: v ∨ ['-', '['] <+: u ∧ ['-', '['] <+: v

theorem SameEnd.ends {u v : List Char} (same : SameEnd u v) (x : List Char) :
    Ends (x ++ u) ↔ Ends (x ++ v) := by
  obtain ⟨⟨u, left⟩, v, right⟩ | ⟨⟨u, left⟩, v, right⟩ := same <;>
    subst left right <;>
    match x with
    | [] => simp [Ends]
    | [c] => simp [Ends]
    | c :: d :: x => simp [Ends]

theorem SameEnd.rangeAhead {u v : List Char} (same : SameEnd u v) (x : List Char) :
    RangeAhead (x ++ u) ↔ RangeAhead (x ++ v) := by
  obtain ⟨⟨u, left⟩, v, right⟩ | ⟨⟨u, left⟩, v, right⟩ := same <;>
    subst left right <;>
    match x with
    | [] => simp [RangeAhead]
    | [c] => simp [RangeAhead]
    | c :: d :: x => simp [RangeAhead]

variable {d : Dialect}

theorem Item.change_rest {after single : Bool} {t v : List Char} {set : CodepointSet}
    (item : Item d after t set single v) : ∃ w, t = w ++ v ∧ w ≠ [] ∧
      ∀ v', (RangeAhead v ↔ RangeAhead v') → (Ends v ↔ Ends v') → Item d after (w ++ v') set single v' := by
  cases item with
  | @single w _ c text noRange hyphen =>
    refine ⟨w, rfl, ?_, fun v' range ends => ?_⟩
    · cases text with
      | escaped escape => cases escape <;> exact List.cons_ne_nil _ _
      | unescaped => exact List.cons_ne_nil _ _
    · exact .single text (mt range.mpr noRange) fun behind same => ends.mp (hyphen behind same)
  | @range u w _ a b first last firstNoHyphen lastNoHyphen ordered =>
    exact ⟨u ++ '-' :: w, rfl, by simp, fun v' _ _ =>
      .range first last firstNoHyphen lastNoHyphen ordered⟩
  | @escape w _ _ text =>
    refine ⟨w, rfl, ?_, fun v' _ _ => .escape text⟩
    cases text <;> simp

theorem Items.change_rest {after : Bool} {t v : List Char} {sets : List CodepointSet}
    (items : Items d after t sets v) :
    ∃ w, t = w ++ v ∧ ∀ v', SameEnd v v' → Items d after (w ++ v') sets v' := by
  induction items with
  | @last after single t v set item ends =>
    obtain ⟨w, same, _, change⟩ := item.change_rest
    exact ⟨w, same, fun v' agree =>
      .last (change v' (agree.rangeAhead []) (agree.ends [])) ((agree.ends []).mp ends)⟩
  | @more after single t u v set sets item goesOn others ih =>
    obtain ⟨w, same, _, change⟩ := item.change_rest
    obtain ⟨x, more, later⟩ := ih
    subst more
    refine ⟨w ++ x, by rw [same, List.append_assoc], fun v' agree => ?_⟩
    rw [List.append_assoc]
    exact .more (change (x ++ v') (agree.rangeAhead x) (agree.ends x))
      (mt (agree.ends x).mpr goesOn) (later v' agree)

theorem Group.change_rest {t v : List Char} {set : CodepointSet} (group : Group d t set v) :
    ∃ w, t = w ++ v ∧ ∀ v', SameEnd v v' → Group d (w ++ v') set v' := by
  cases group with
  | positive start items =>
    obtain ⟨w, same, change⟩ := items.change_rest
    refine ⟨w, same, fun v' agree => .positive ?_ (change v' agree)⟩
    cases w with
    | nil =>
      obtain ⟨_, u, right⟩ | ⟨_, u, right⟩ := agree <;> simp [← right]
    | cons c w =>
      subst same
      simpa using start
  | negative items =>
    obtain ⟨w, same, change⟩ := items.change_rest
    exact ⟨'^' :: w, by rw [same, List.cons_append], fun v' agree => .negative (change v' agree)⟩

theorem ClassText.change_rest {n : Nat} {t v : List Char} {set : CodepointSet}
    (text : ClassText d n t set v) :
    ∃ w, t = '[' :: w ++ v ∧ ∀ v', ClassText d n ('[' :: w ++ v') set v' := by
  induction text with
  | @group n t v set group =>
    obtain ⟨w, same, change⟩ := group.change_rest
    refine ⟨w ++ [']'], by simp [same], fun v' => ?_⟩
    have moved := ClassText.group (n := n) (change (']' :: v') (.inl ⟨by simp, by simp⟩))
    simpa using moved
  | @minus n t u v set except group subtracted ih =>
    obtain ⟨w, same, change⟩ := group.change_rest
    obtain ⟨x, more, later⟩ := ih
    refine ⟨w ++ '-' :: '[' :: x ++ [']'], by simp [same, more], fun v' => ?_⟩
    have moved := ClassText.minus (change ('-' :: '[' :: x ++ ']' :: v')
      (.inr ⟨by simp [more], by simp⟩)) (later (']' :: v'))
    simpa using moved

theorem takes_classChar {t v : List Char} {c : Char} :
    (classChar d).Takes t c v ↔ ∃ w, t = w ++ v ∧ ClassCharText d w c := by
  simp only [classChar, takes_orElse, takes_escapedChar, unescapedChar, takes_satisfying, takes_anyChar,
    decide_eq_true_eq]
  constructor
  · intro takes
    obtain ⟨w, same, escape⟩ | ⟨_, same, plain⟩ := takes
    · exact ⟨w, same, .escaped escape⟩
    · exact ⟨[c], same, .unescaped plain⟩
  · intro given
    obtain ⟨w, same, text⟩ := given
    cases text with
    | escaped escape => exact .inl ⟨w, same, escape⟩
    | unescaped plain =>
      refine .inr ⟨(recovers_escapedChar d).rejects_iff.mpr fun e u takes => ?_, same, plain⟩
      obtain ⟨x, more, escape⟩ := takes_escapedChar.mp takes
      rw [same] at more
      cases escape <;> cases more <;> simp at plain

theorem recovers_classChar (d : Dialect) : (classChar d).Recovers :=
  (recovers_escapedChar d).orElse (recovers_anyChar.satisfying _ _)

theorem recovers_endOfItems : endOfItems.Recovers :=
  ((recovers_token _).orElse (recovers_token _)).peek

theorem takes_endOfItems {t v : List Char} {a : Unit} : endOfItems.Takes t a v ↔ Ends t ∧ v = t := by
  simp only [endOfItems, takes_peek, takes_orElse, takes_token, rejects_token]
  constructor
  · intro given
    obtain ⟨⟨u, front⟩, same⟩ := given
    obtain front | ⟨_, front⟩ := front
    · exact ⟨.inr ⟨u, by simp [front]⟩, same⟩
    · exact ⟨.inl ⟨u, by simp [front]⟩, same⟩
  · intro given
    obtain ⟨ends, same⟩ := given
    obtain ⟨u, front⟩ | ⟨u, front⟩ := ends
    · exact ⟨⟨u, .inr ⟨by simp [← front], by simp [← front]⟩⟩, same⟩
    · exact ⟨⟨u, .inl (by simp [← front])⟩, same⟩

theorem takes_rangeTail {t v : List Char} {c : Char} :
    rangeTail.Takes t c v ↔ t = '-' :: c :: v ∧ c ≠ '[' ∧ c ≠ ']' := by
  simp only [rangeTail, takes_skipThen, takes_token, takes_satisfying, takes_anyChar]
  constructor
  · intro given
    obtain ⟨_, u, front, same, passes⟩ := given
    exact ⟨by simp [front, same], of_decide_eq_true passes⟩
  · intro given
    obtain ⟨same, other⟩ := given
    exact ⟨(), c :: v, by simp [same], rfl, decide_eq_true other⟩

theorem recovers_rangeTail : rangeTail.Recovers :=
  (recovers_token _).andThen fun _ => recovers_anyChar.satisfying _ _

theorem rejects_rangeTail {t : List Char} : rangeTail.Rejects t ↔ ¬ RangeAhead t := by
  rw [recovers_rangeTail.rejects_iff]
  simp only [takes_rangeTail, RangeAhead, not_exists]

theorem ClassCharText.of_hyphen {w u v : List Char} {c : Char} (text : ClassCharText d w c)
    (start : w ++ v = '-' :: u) : w = ['-'] ∧ c = '-' := by
  cases text with
  | escaped escape => cases escape <;> simp at start
  | unescaped =>
    cases start
    exact ⟨rfl, rfl⟩

theorem not_starts_bracket_of_ends {t : List Char} (ends : Ends t) : ¬ "[".toList <+: t := by
  obtain ⟨u, same⟩ | ⟨u, same⟩ := ends <;> simp [← same]

theorem takes_charAfterSingle {t v : List Char} {c : Char} :
    (charAfterSingle d).Takes t c v ↔
      ∃ w, t = w ++ v ∧ ClassCharText d w c ∧ (w = ['-'] → Ends v) := by
  simp only [charAfterSingle, takes_orElse, takes_as, rejects_as, takes_thenSkip, takes_token,
    takes_notAhead, rejects_token, takes_endOfItems, takes_skipThen, takes_classChar]
  constructor
  · intro takes
    obtain ⟨⟨_, _, ⟨_, front, _, _, rest⟩, _, ends, more⟩, value⟩ |
      ⟨_, _, _, ⟨noHyphen, rest⟩, w, same, text⟩ := takes
    · subst rest more front value
      exact ⟨['-'], by simp, .unescaped (by decide), fun _ => ends⟩
    · subst rest
      refine ⟨w, same, text, fun hyphen => absurd ⟨v, ?_⟩ noHyphen⟩
      rw [same, hyphen]
      simp
  · intro given
    obtain ⟨w, same, text, hyphen⟩ := given
    subst same
    by_cases start : "-".toList <+: w ++ v
    · obtain ⟨u, front⟩ := start
      obtain ⟨one, value⟩ := text.of_hyphen (by simpa using front.symm)
      subst one value
      have ends := hyphen rfl
      exact .inl ⟨⟨(), v, ⟨v, by simp, (), not_starts_bracket_of_ends ends, rfl⟩, (), ends, rfl⟩, rfl⟩
    · refine .inr ⟨?_, (), w ++ v, ⟨start, rfl⟩, w, rfl, text⟩
      exact rejects_thenSkip.mpr (.inl (rejects_thenSkip.mpr (.inl (rejects_token.mpr start))))

theorem recovers_charAfterSingle (d : Dialect) : (charAfterSingle d).Recovers := by
  have hyphen : (((token "-").thenSkip (notAhead (token "[") ["not ["])).thenSkip endOfItems).Recovers :=
    ((recovers_token _).andThen fun _ => ((recovers_token _).notAhead _).map _).andThen
      fun _ => recovers_endOfItems.map _
  exact (hyphen.map _).orElse (((recovers_token _).notAhead _).andThen fun _ => recovers_classChar d)

theorem takes_loneChar {after : Bool} {t v : List Char} {c : Char} :
    (loneChar d after).Takes t c v ↔ ∃ w, t = w ++ v ∧ ClassCharText d w c ∧ ¬ RangeAhead v ∧
      (after = true → w = ['-'] → Ends v) := by
  simp only [loneChar, takes_thenSkip, takes_notAhead, rejects_rangeTail]
  cases after with
  | false =>
    simp only [Bool.false_eq_true, if_false, takes_classChar, false_implies, and_true]
    constructor
    · intro given
      obtain ⟨_, ⟨w, same, text⟩, _, noRange, rest⟩ := given
      subst rest
      exact ⟨w, same, text, noRange⟩
    · intro given
      obtain ⟨w, same, text, noRange⟩ := given
      exact ⟨v, ⟨w, same, text⟩, (), noRange, rfl⟩
  | true =>
    simp only [if_true, takes_charAfterSingle, true_implies]
    constructor
    · intro given
      obtain ⟨_, ⟨w, same, text, hyphen⟩, _, noRange, rest⟩ := given
      subst rest
      exact ⟨w, same, text, noRange, hyphen⟩
    · intro given
      obtain ⟨w, same, text, noRange, hyphen⟩ := given
      exact ⟨v, ⟨w, same, text, hyphen⟩, (), noRange, rfl⟩

theorem recovers_loneChar (d : Dialect) (after : Bool) : (loneChar d after).Recovers := by
  have first : (if after then charAfterSingle d else classChar d).Recovers := by
    cases after
    · exact recovers_classChar d
    · exact recovers_charAfterSingle d
  exact first.andThen fun _ => (recovers_rangeTail.notAhead _).map _

theorem takes_endpoint {t v : List Char} {c : Char} :
    (endpoint d).Takes t (some c) v ↔ ∃ w, t = w ++ v ∧ ClassCharText d w c ∧ w ≠ ['-'] := by
  simp only [endpoint, takes_orElse, takes_as, reduceCtorEq, and_false, false_or, rejects_as,
    rejects_token, takes_map, takes_classChar, Option.some.injEq]
  constructor
  · intro given
    obtain ⟨start, _, ⟨w, same, text⟩, value⟩ := given
    subst value same
    exact ⟨w, rfl, text, fun hyphen => start ⟨v, by simp [hyphen]⟩⟩
  · intro given
    obtain ⟨w, same, text, noHyphen⟩ := given
    subst same
    refine ⟨fun front => noHyphen ?_, c, ⟨w, rfl, text⟩, rfl⟩
    obtain ⟨u, start⟩ := front
    exact (text.of_hyphen (by simpa using start.symm)).1

theorem takes_charRange {s : Settings} {t v : List Char} {set : CodepointSet} :
    (charRange s).Takes t set v ↔ ∃ u w a b, t = u ++ '-' :: w ++ v ∧
      ClassCharText s.dialect u a ∧ u ≠ ['-'] ∧ ClassCharText s.dialect w b ∧ w ≠ ['-'] ∧
      a.toNat ≤ b.toNat ∧ set = .ofRanges [⟨a.toNat, b.toNat⟩] := by
  have between (a b : Char) : rangeBetween (some a, some b) = .ok set ↔
      a.toNat ≤ b.toNat ∧ set = .ofRanges [⟨a.toNat, b.toNat⟩] := by
    by_cases less : b.toNat < a.toNat
    · simp only [rangeBetween, CodepointSet.ofBounds, if_pos less, reduceCtorEq, false_iff, not_and]
      omega
    · simp only [rangeBetween, CodepointSet.ofBounds, if_neg less, CodepointSet.ofRange_eq,
        Except.ok.injEq, Nat.le_of_not_lt less, true_and]
      exact eq_comm
  constructor
  · intro takes
    obtain ⟨⟨first, last⟩, takes, value⟩ := takes_resolve.mp takes
    obtain ⟨x, first', rest⟩ := takes_pair.mp takes
    obtain ⟨_, y, hyphen, last'⟩ := takes_skipThen.mp rest
    match first, last with
    | none, _ => cases value
    | some _, none => cases value
    | some a, some b =>
      obtain ⟨u, same, firstText, firstNoHyphen⟩ := takes_endpoint.mp first'
      obtain ⟨w, more, lastText, lastNoHyphen⟩ := takes_endpoint.mp last'
      obtain ⟨ordered, value⟩ := (between a b).mp value
      rw [takes_token] at hyphen
      subst same hyphen more
      exact ⟨u, w, a, b, by simp, firstText, firstNoHyphen, lastText, lastNoHyphen, ordered, value⟩
  · intro given
    obtain ⟨u, w, a, b, same, firstText, firstNoHyphen, lastText, lastNoHyphen, ordered, value⟩ := given
    subst same
    refine takes_resolve.mpr ⟨(some a, some b), takes_pair.mpr ⟨'-' :: w ++ v, ?_, ?_⟩,
      (between a b).mpr ⟨ordered, value⟩⟩
    · exact takes_endpoint.mpr ⟨u, by simp, firstText, firstNoHyphen⟩
    · refine takes_skipThen.mpr ⟨(), w ++ v, by simp, ?_⟩
      exact takes_endpoint.mpr ⟨w, rfl, lastText, lastNoHyphen⟩

theorem rejects_classChar_of_escape {w v : List Char} {set : CodepointSet}
    (escape : ClassEscape d w set) : (classChar d).Rejects (w ++ v) := by
  refine (recovers_classChar d).rejects_iff.mpr fun c x takes => ?_
  obtain ⟨u, same, text⟩ := takes_classChar.mp takes
  cases text with
  | escaped other => exact escape.not_charEscape other same
  | unescaped plain =>
    obtain ⟨a, y, front, _⟩ := escape.start
    rw [front] at same
    cases same
    simp at plain

theorem rejects_charRange_of_escape {s : Settings} {w v : List Char} {set : CodepointSet}
    (escape : ClassEscape s.dialect w set) : (charRange s).Rejects (w ++ v) := by
  obtain ⟨a, y, front, _⟩ := escape.start
  apply Rejects.resolve
  refine rejects_pair.mpr (.inl (rejects_orElse.mpr ⟨?_, ?_⟩))
  · exact rejects_as.mpr (rejects_token.mpr (by simp [front]))
  · exact rejects_map.mpr (rejects_classChar_of_escape escape)

theorem rejects_loneChar {after : Bool} {t : List Char}
    (other : ∀ w v c, t = w ++ v → ClassCharText d w c → RangeAhead v) :
    (loneChar d after).Rejects t := by
  refine (recovers_loneChar d after).rejects_iff.mpr fun c v takes => ?_
  obtain ⟨w, same, text, noRange, _⟩ := takes_loneChar.mp takes
  exact noRange (other w v c same text)

theorem ClassCharText.start {w : List Char} {c : Char} (text : ClassCharText d w c) :
    ∃ a u, w = a :: u ∧ a ≠ '[' ∧ a ≠ ']' := by
  cases text with
  | escaped escape =>
    obtain ⟨e, same, _⟩ := escape.start
    exact ⟨'\\', [e], same, by decide, by decide⟩
  | @unescaped c plain =>
    simp only [List.mem_cons, List.not_mem_nil, or_false, not_or] at plain
    exact ⟨c, [], rfl, plain.2.1, plain.2.2⟩

theorem ClassCharText.unique {u v w x : List Char} {a b : Char} (first : ClassCharText d u a)
    (second : ClassCharText d w b) (same : u ++ v = w ++ x) : a = b ∧ v = x :=
  (takes_classChar.mpr ⟨u, rfl, first⟩).unique (takes_classChar.mpr ⟨w, same, second⟩)

theorem takes_item {s : Settings} {after single : Bool} {t v : List Char} {set : CodepointSet} :
    (item s after).Takes t (set, single) v ↔ Item s.dialect after t set single v := by
  simp only [item, takes_orElse, takes_map, Prod.mk.injEq, rejects_map]
  constructor
  · intro takes
    obtain ⟨c, takes, value, kind⟩ | ⟨_, inner, takes, value, kind⟩ := takes
    · obtain ⟨w, same, text, noRange, hyphen⟩ := takes_loneChar.mp takes
      subst same value kind
      exact .single text noRange hyphen
    · subst value kind
      obtain takes | ⟨_, takes⟩ := takes
      · obtain ⟨u, w, a, b, same, first, firstNoHyphen, last, lastNoHyphen, ordered, value⟩ :=
          takes_charRange.mp takes
        subst same value
        exact .range first last firstNoHyphen lastNoHyphen ordered
      · obtain ⟨w, same, escape⟩ := takes_classEscape.mp takes
        subst same
        exact .escape escape
  · intro item
    cases item with
    | @single w _ c text noRange hyphen =>
      exact .inl ⟨c, takes_loneChar.mpr ⟨w, rfl, text, noRange, hyphen⟩, rfl, rfl⟩
    | @range u w _ a b first last firstNoHyphen lastNoHyphen ordered =>
      refine .inr ⟨rejects_loneChar fun x y c same text => ?_, _, .inl (takes_charRange.mpr
        ⟨u, w, a, b, rfl, first, firstNoHyphen, last, lastNoHyphen, ordered, rfl⟩), rfl, rfl⟩
      obtain ⟨_, rest⟩ := first.unique text ((List.append_assoc _ _ _).symm.trans same)
      obtain ⟨e, z, start, noOpening, noClosing⟩ := last.start
      exact ⟨e, z ++ v, by simp [← rest, start], noOpening, noClosing⟩
    | @escape w _ _ escape =>
      refine .inr ⟨rejects_loneChar fun x y c same text => ?_, _, .inr
        ⟨rejects_charRange_of_escape escape, takes_classEscape.mpr ⟨w, rfl, escape⟩⟩, rfl, rfl⟩
      exact absurd (takes_classChar.mpr ⟨x, same, text⟩) (rejects_classChar_of_escape escape).not_takes

theorem Item.shorter {after single : Bool} {t v : List Char} {set : CodepointSet}
    (item : Item d after t set single v) : v.length < t.length := by
  obtain ⟨w, same, nonempty, _⟩ := item.change_rest
  rw [same, List.length_append]
  exact Nat.lt_add_of_pos_left (List.length_pos_iff.mpr nonempty)

/-- Behind an item the items end, or there are others. -/
theorem takes_items_of_item {s : Settings} {started after single : Bool} {t u v : List Char}
    {set : CodepointSet} {sets : List CodepointSet} (read : Item s.dialect after t set single u) :
    Takes (items s started after) t sets v ↔ Ends u ∧ sets = [set] ∧ v = u ∨
      ¬ Ends u ∧ ∃ others, Takes (items s true single) u others v ∧ sets = set :: others := by
  have first : (item s after (.ofList t)).outcome = .accepted (set, single) (.ofList u) :=
    takes_item.mpr read
  have shorter : (Unread.ofList u).size < (Unread.ofList t).size := read.shorter
  unfold Takes
  rw [items]
  simp only [first, shorter, if_true]
  by_cases ends : Ends u
  · have stop : (endOfItems (.ofList u)).outcome = .accepted () (.ofList u) :=
      takes_endOfItems.mpr ⟨ends, rfl⟩
    simp only [stop, Outcome.accepted.injEq, ends, not_true_eq_false, false_and, or_false, true_and]
    constructor
    · intro given
      obtain ⟨only, rest⟩ := given
      exact ⟨only.symm, (ofList_injective rest).symm⟩
    · intro given
      obtain ⟨only, rest⟩ := given
      rw [only, rest]
      exact ⟨rfl, rfl⟩
  · obtain ⟨f, stop⟩ : endOfItems.Rejects u :=
      recovers_endOfItems.rejects_iff.mpr fun _ _ takes => ends (takes_endOfItems.mp takes).1
    simp only [stop, ends, not_false_eq_true, false_and, false_or, true_and]
    cases others : (items s true single (.ofList u)).outcome with
    | accepted sets' rest =>
      simp only [Outcome.accepted.injEq]
      constructor
      · intro given
        obtain ⟨all, same⟩ := given
        exact ⟨sets', ⟨rfl, same⟩, all.symm⟩
      · intro given
        obtain ⟨_, ⟨found, same⟩, all⟩ := given
        rw [all, found]
        exact ⟨rfl, same⟩
    | rejected g => simp
    | aborted g => simp

theorem item_of_takes_items {s : Settings} {started after : Bool} {t v : List Char}
    {sets : List CodepointSet} (takes : Takes (items s started after) t sets v) :
    ∃ set single u, Item s.dialect after t set single u := by
  unfold Takes at takes
  rw [items] at takes
  cases first : (item s after (.ofList t)).outcome with
  | accepted value rest =>
    refine ⟨value.1, value.2, rest.chars, ?_⟩
    rw [← takes_item, Takes, rest.ofList_chars, first]
  | rejected f =>
    rw [first] at takes
    cases takes
  | aborted f =>
    rw [first] at takes
    cases takes

theorem takes_items {s : Settings} {started after : Bool} {t v : List Char}
    {sets : List CodepointSet} :
    Takes (items s started after) t sets v ↔ Items s.dialect after t sets v := by
  constructor
  · intro takes
    induction size : t.length using Nat.strongRecOn generalizing t sets started after with
    | ind n ih =>
      obtain ⟨set, single, u, item⟩ := item_of_takes_items takes
      obtain ⟨ends, only, rest⟩ | ⟨goesOn, others, further, same⟩ :=
        (takes_items_of_item item).mp takes
      · subst only rest
        exact .last item ends
      · subst same
        exact .more item goesOn (ih u.length (size ▸ item.shorter) further rfl)
  · intro items
    induction items generalizing started with
    | last item ends => exact (takes_items_of_item item).mpr (.inl ⟨ends, rfl, rfl⟩)
    | more item goesOn _ ih => exact (takes_items_of_item item).mpr (.inr ⟨goesOn, _, ih, rfl⟩)

theorem takes_group {s : Settings} {t v : List Char} {set : CodepointSet} :
    ((positiveGroup s).orElse (negativeGroup s)).Takes t set v ↔ Group s.dialect t set v := by
  simp only [takes_orElse, positiveGroup, negativeGroup, takes_skipThen, takes_notAhead, takes_map,
    takes_items, takes_token, rejects_token]
  constructor
  · intro takes
    obtain ⟨_, _, ⟨start, rest⟩, sets, items, value⟩ | ⟨_, _, u, front, sets, items, value⟩ := takes
    · subst rest value
      exact .positive (by simpa using start) items
    · subst front value
      have negative := Group.negative items
      simpa using negative
  · intro group
    cases group with
    | positive start items =>
      exact .inl ⟨(), t, ⟨by simpa using start, rfl⟩, _, items, rfl⟩
    | @negative t _ sets items =>
      refine .inr ⟨?_, (), t, by simp, sets, items, rfl⟩
      exact rejects_skipThen.mpr (.inl (rejects_notAhead.mpr ⟨(), t, by simp⟩))

theorem rejects_classExpr {s : Settings} {n : Nat} {t : List Char} (other : ¬ ['['] <+: t) :
    Rejects (classExpr s n) t := by
  have start : ¬ "[".toList <+: t := by simpa using other
  cases n with
  | zero => exact rejects_enclosed start
  | succ n => exact rejects_enclosed start

theorem takes_classExpr {s : Settings} {n : Nat} {t v : List Char} {set : CodepointSet} :
    Takes (classExpr s n) t set v ↔ ClassText s.dialect n t set v := by
  induction n generalizing t v set with
  | zero =>
    constructor
    · intro takes
      obtain ⟨_, none, _⟩ := takes_enclosed.mp takes
      cases none
    · intro text
      cases text
  | succ n ih =>
    constructor
    · intro takes
      obtain ⟨_, inner, u, front, inside⟩ := takes_enclosed.mp takes
      cases inner
      obtain ⟨⟨group, except⟩, inside, value⟩ := takes_map.mp inside
      obtain ⟨x, first, second⟩ := takes_pair.mp inside
      have text := takes_group.mp first
      cases except with
      | none =>
        obtain ⟨_, rest⟩ := takes_opt_none.mp second
        subst front value rest
        exact .group (by simpa using text)
      | some except =>
        obtain ⟨_, y, minus, subtracted⟩ := takes_skipThen.mp (takes_opt_some.mp second)
        rw [takes_token] at minus
        subst front value minus
        exact .minus (by simpa using text) (ih.mp (by simpa using subtracted))
    · intro text
      refine takes_enclosed.mpr ⟨_, rfl, ?_⟩
      cases text with
      | @group _ t _ _ group =>
        refine ⟨t, by simp, takes_map.mpr ⟨(set, none), takes_pair.mpr ⟨']' :: v, ?_, ?_⟩, rfl⟩⟩
        · exact takes_group.mpr group
        · refine takes_opt_none.mpr ⟨rejects_skipThen.mpr (.inl (rejects_token.mpr (by simp))), ?_⟩
          simp
      | @minus _ t u _ set except group subtracted =>
        refine ⟨t, by simp, takes_map.mpr ⟨(set, some except), takes_pair.mpr ⟨'-' :: u, ?_, ?_⟩, rfl⟩⟩
        · exact takes_group.mpr group
        · refine takes_opt_some.mpr (takes_skipThen.mpr ⟨(), u, by simp, ?_⟩)
          simpa using ih.mpr subtracted

/-- What follows a class expression does not matter, nor do the settings but the dialect. -/
theorem takes_classExpr_append {s s' : Settings} (same : s.dialect = s'.dialect) {n : Nat}
    {w v v' : List Char} {set : CodepointSet} (takes : Takes (classExpr s n) (w ++ v) set v) :
    Takes (classExpr s' n) (w ++ v') set v' := by
  have text := takes_classExpr.mp takes
  rw [same] at text
  obtain ⟨x, read, change⟩ := text.change_rest
  have front : w = '[' :: x := List.append_cancel_right read
  rw [front]
  exact takes_classExpr.mpr (change v')

theorem exists_of_takes_classExpr {s : Settings} {n : Nat} {t v : List Char} {set : CodepointSet}
    (takes : Takes (classExpr s n) t set v) : ∃ w, t = '[' :: w ++ v := by
  obtain ⟨w, same, _⟩ := (takes_classExpr.mp takes).change_rest
  exact ⟨w, same⟩

end SchemaRegex.Pattern

import SchemaRegex.Proofs.Pattern.NestingLimit
import SchemaRegex.Proofs.Pattern.PatternSyntax

/-!
# Hyphens before a subtraction

A group may end in a hyphen with a subtraction behind it. With a backslash the hyphen is a character of
the group whatever stands before it. Without one it is that character exactly if what stands before it is
a range or an escape; behind a single character the two hyphens are taken for a range that ends in a hyphen,
and the pattern is refused where that character stands (`hyphen_before_subtraction`).
-/

namespace SchemaRegex

def Regex.ofSet (set : CodepointSet) : Regex := ⟨[⟨[⟨.set set, .once⟩]⟩]⟩

namespace Pattern

open Reader

variable {α β : Type} {d : Dialect} {s : Settings} {n : Nat}

namespace Reader

private def Aborts (p : Reader α) (t : List Char) (f : Failure) : Prop := (p (.ofList t)).outcome = .aborted f

variable {p q : Reader α} {t u : List Char} {f : Failure}

private theorem Aborts.andThen {next : α → Reader β} (aborts : p.Aborts t f) :
    (p.andThen next).Aborts t f := by
  unfold Aborts at *
  simp only [Reader.andThen, aborts]

private theorem Aborts.behind {a : α} {next : α → Reader β} (takes : p.Takes t a u)
    (aborts : (next a).Aborts u f) : (p.andThen next).Aborts t f := by
  unfold Aborts Takes at *
  simp only [Reader.andThen, takes, aborts]

private theorem Aborts.map (aborts : p.Aborts t f) (g : α → β) : (p.map g).Aborts t f := aborts.andThen

private theorem Aborts.orElse (aborts : p.Aborts t f) : (p.orElse q).Aborts t f := by
  unfold Aborts at *
  simp only [Reader.orElse, aborts]

private theorem Aborts.otherwise (rejects : p.Rejects t) (aborts : q.Aborts t f) :
    (p.orElse q).Aborts t f := by
  obtain ⟨g, rejected⟩ := rejects
  unfold Aborts at *
  simp only [Reader.orElse, rejected, aborts]

private theorem Aborts.firstOf {ps before after : List (Reader α)} (order : p :: ps = before ++ q :: after)
    (rejects : ∀ x ∈ before, x.Rejects t) (aborts : q.Aborts t f) : (firstOf p ps).Aborts t f :=
  firstOf_after (P := fun p => p.Aborts t f) (R := fun p => p.Rejects t) .orElse .otherwise
    (fun first second => rejects_orElse.mpr ⟨first, second⟩) order rejects aborts

private theorem Aborts.many (aborts : p.Aborts t f) : Aborts (Reader.many p) t f := by
  unfold Aborts at *
  rw [Reader.many]
  simp only [aborts]

private theorem Aborts.recorded (aborts : p.Aborts t f) : p.recorded.Aborts t f := by
  unfold Aborts at *
  simp only [Reader.recorded, aborts]

private theorem Aborts.cut (aborts : p.Aborts t f) (commits : Bool) : (Reader.cut commits p).Aborts t f := by
  unfold Aborts at *
  simp only [Reader.cut, aborts]

/-- A value that breaks a rule is given up where it starts. -/
theorem aborts_resolve {g : α → Except Violation β} {a : α} {v : Violation} (takes : p.Takes t a u)
    (broken : g a = .error v) : (resolve true p g).Aborts t ⟨.ofList t, .violation v⟩ := by
  unfold Aborts Takes at *
  simp only [resolve, takes, broken]
  rfl

private theorem Aborts.enclosed {opening closing : String} (aborts : p.Aborts t f) :
    (enclosed s opening (some p) closing).Aborts (opening.toList ++ t) f :=
  .behind (takes_token (a := ()).mpr rfl) (Aborts.cut aborts.andThen s.commits)

end Reader

private theorem itemsText_append (xs ys : List ClassItem) :
    itemsText (xs ++ ys) = itemsText xs ++ itemsText ys :=
  List.flatMap_append

private theorem fitTogether_append {previous : Option ClassItem} {xs ys : List ClassItem} {v : List Char} :
    FitTogether previous (xs ++ ys) v ↔
      FitTogether previous xs (itemsText ys ++ v) ∧ FitTogether (xs.getLast?.or previous) ys v := by
  induction xs generalizing previous with
  | nil => simp [FitTogether]
  | cons x xs ih =>
    have last : (x :: xs).getLast?.or previous = xs.getLast?.or (some x) := by
      cases xs.eq_nil_or_concat with
      | inl none => simp [none]
      | inr given =>
        obtain ⟨ys, y, same⟩ := given
        simp [same, List.getLast?_cons]
    rw [List.cons_append, FitTogether, FitTogether, ih, last, itemsText_append, List.append_assoc, and_assoc]

/-- What is behind a character that is no hyphen does not matter for the items before it. -/
theorem ClassItem.FitsBetween.change_behind {item : ClassItem} {previous : Option ClassItem} {c : Char}
    {u v w : List Char} (noHyphen : c ≠ '-') (fits : item.FitsBetween previous (w ++ c :: u)) :
    item.FitsBetween previous (w ++ c :: v) := by
  unfold ClassItem.FitsBetween at *
  match w with
  | [] => simpa [noHyphen] using fits
  | [e] => simpa using fits
  | e :: g :: w => simpa using fits

private theorem FitTogether.change_behind {previous : Option ClassItem} {items : List ClassItem} {c : Char}
    {u v : List Char} (noHyphen : c ≠ '-') (fit : FitTogether previous items (c :: u)) :
    FitTogether previous items (c :: v) := by
  induction items generalizing previous with
  | nil => trivial
  | cons item items ih => exact ⟨fit.1.change_behind noHyphen, ih fit.2⟩

/-- With two hyphens behind it a character is taken for the start of a range, which may not end in the
second hyphen. -/
theorem aborts_item_two_hyphens (after : Bool) {w x : List Char} {c : Char}
    (text : ClassCharText s.dialect w c) (noHyphen : w ≠ ['-']) (commits : s.commits = true) :
    (item s after).Aborts (w ++ '-' :: '-' :: x)
      ⟨.ofList (w ++ '-' :: '-' :: x), .violation .hyphenEndpoint⟩ := by
  have lone : (loneChar s.dialect after).Rejects (w ++ '-' :: '-' :: x) := by
    refine rejects_loneChar fun u v c' same other => ?_
    obtain ⟨_, rest⟩ := text.unique other same
    exact rest ▸ .of_two_hyphens
  have hyphen : (endpoint s.dialect).Takes ('-' :: x) none x :=
    takes_orElse.mpr (.inl (takes_as.mpr ⟨⟨(), takes_token.mpr (by simp)⟩, rfl⟩))
  have bounds : ((endpoint s.dialect).pair ((token "-").skipThen (endpoint s.dialect))).Takes
      (w ++ '-' :: '-' :: x) (some c, none) x :=
    takes_pair.mpr ⟨_, takes_endpoint.mpr ⟨w, rfl, text, noHyphen⟩,
      takes_skipThen.mpr ⟨(), _, takes_token.mpr (by simp), hyphen⟩⟩
  have range : (charRange s).Aborts (w ++ '-' :: '-' :: x)
      ⟨.ofList (w ++ '-' :: '-' :: x), .violation .hyphenEndpoint⟩ := by
    unfold charRange
    rw [commits]
    exact aborts_resolve bounds rfl
  exact .otherwise (rejects_map.mpr lone) (range.orElse.map _)

private theorem aborts_items_first {started after : Bool} {t : List Char} {f : Failure}
    (aborts : (item s after).Aborts t f) : Aborts (items s started after) t f := by
  unfold Aborts at *
  rw [items]
  simp only [aborts]

private theorem aborts_items_behind {started after single : Bool} {t u : List Char} {set : CodepointSet}
    {f : Failure} (read : Item s.dialect after t set single u) (goesOn : ¬ Ends u)
    (aborts : Aborts (items s true single) u f) : Aborts (items s started after) t f := by
  have first : (item s after (.ofList t)).outcome = .accepted (set, single) (.ofList u) :=
    takes_item.mpr read
  have shorter : (Unread.ofList u).size < (Unread.ofList t).size := read.shorter
  obtain ⟨g, stop⟩ : endOfItems.Rejects u :=
    recovers_endOfItems.rejects_iff.mpr fun _ _ takes => goesOn (takes_endOfItems.mp takes).1
  unfold Aborts at *
  rw [items]
  simp only [first, shorter, if_true, stop, aborts]

/-- The items in front are read, one after the other, and the last one gives up. -/
theorem aborts_items {previous : Option ClassItem} {front : List ClassItem} {last : ClassItem}
    {v : List Char} {f : Failure} (formed : ∀ item ∈ front ++ [last], item.WellFormed s.dialect)
    (noOpening : ¬ ['['] <+: v) (fit : FitTogether previous front (last.text ++ v))
    (aborts : ∀ after, (item s after).Aborts (last.text ++ v) f) (started : Bool) :
    Aborts (items s started (previous.any ClassItem.isSingle)) (itemsText (front ++ [last]) ++ v) f := by
  induction front generalizing previous started with
  | nil =>
    have first : Aborts (items s started (previous.any ClassItem.isSingle)) (last.text ++ v) f :=
      aborts_items_first (aborts _)
    simpa [itemsText] using first
  | cons item front ih =>
    obtain ⟨here, later⟩ := fit
    obtain ⟨first, others⟩ := List.forall_mem_cons.mp formed
    have text : itemsText (item :: front ++ [last]) ++ v =
        item.text ++ (itemsText (front ++ [last]) ++ v) := by
      simp [itemsText]
    have read := Item.of_tree first here
    have same : itemsText front ++ (last.text ++ v) = itemsText (front ++ [last]) ++ v := by
      simp [itemsText]
    have goesOn : ¬ Ends (itemsText (front ++ [last]) ++ v) := by
      cases front <;> exact not_ends_itemsText others noOpening
    rw [same] at read
    rw [text]
    exact aborts_items_behind read goesOn (ih others later true)

/-- The expression with a hyphen behind the other items of its group and a subtraction behind it, given how
that hyphen is written. -/
def hyphenated (negated : Bool) (items : List ClassItem) (hyphen : List Char) (except : ClassSyntax) :
    ClassSyntax :=
  .minus ⟨negated, items ++ [.single hyphen '-']⟩ except

variable {negated : Bool} {front : List ClassItem} {last : ClassItem} {except : ClassSyntax}

private theorem hyphenated_text : (hyphenated negated (front ++ [last]) ['-'] except).text =
    '[' :: ClassGroup.text ⟨negated, front⟩ ++ (last.text ++ '-' :: '-' :: except.text ++ [']']) := by
  cases negated <;> simp [hyphenated, ClassSyntax.text, ClassGroup.text, itemsText, ClassItem.text]

private theorem parse_classSyntax {e : ClassSyntax} (formed : e.WellFormed d) (deep : e.depth ≤ n) :
    parse (limited d n) (String.ofList e.text) = .ok (.ofSet e.set) := by
  refine parse_eq_ok_iff_tree.mpr ⟨.leaf (.classExpr e) .absent .empty, ⟨formed, trivial, trivial⟩,
    Nat.max_le.mpr ⟨deep, Nat.zero_le n⟩, ?_, rfl⟩
  simp [PatternSyntax.text, LeafSyntax.text, QuantifierSyntax.text]

private theorem fit_front (formed : last.WellFormed d) (noHyphen : last.text ≠ ['-'])
    {previous : Option ClassItem}
    {ys : List ClassItem} {u v : List Char} (fit : FitTogether previous (front ++ last :: ys) u) :
    FitTogether previous front (last.text ++ v) := by
  obtain ⟨c, x, same, _, _, hyphen⟩ := ClassItem.start formed
  have other : c ≠ '-' := by
    intro found
    rw [same, found, (hyphen found).2] at noHyphen
    exact noHyphen rfl
  have front := (fitTogether_append.mp fit).1
  simp only [itemsText, List.flatMap_cons, same, List.cons_append] at front
  rw [same]
  exact front.change_behind other

/-- Behind a range or an escape the hyphen needs no backslash. -/
theorem hyphenated_wellFormed
    (formed : (hyphenated negated (front ++ [last]) ['\\', '-'] except).WellFormed d)
    (noHyphen : last.text ≠ ['-']) (range : last.isSingle = false) :
    (hyphenated negated (front ++ [last]) ['-'] except).WellFormed d := by
  obtain ⟨⟨_, each, fit, noCircumflex⟩, exceptFormed⟩ := formed
  have body : ∀ item ∈ front ++ [last], item.WellFormed d :=
    fun item member => each item (List.mem_append_left _ member)
  have lastFormed : last.WellFormed d := body last (by simp)
  have hyphen : (ClassItem.single ['-'] '-').WellFormed d := .unescaped (by decide)
  rw [List.append_assoc] at fit
  refine ⟨⟨by simp, List.forall_mem_append.mpr ⟨body, List.forall_mem_singleton.mpr hyphen⟩, ?_,
    fun positive item head => noCircumflex positive item ?_⟩, exceptFormed⟩
  · rw [List.append_assoc]
    obtain ⟨x, opening⟩ := except.opening
    refine fitTogether_append.mpr
      ⟨?_, fun single => ?_, fun _ => ⟨fun v same => .inl ?_, fun _ => ?_⟩, trivial⟩
    · have front := fit_front (v := '-' :: '-' :: except.text ++ [']']) lastFormed noHyphen fit
      simpa [itemsText, ClassItem.text] using front
    · rw [range] at single
      cases single
    · rw [← opening] at same
      cases same
      exact ⟨x ++ [']'], rfl⟩
    · exact .inr (.inl ⟨last, rfl, range⟩)
  · rw [List.head?_append_of_ne_nil _ (by simp)] at head ⊢
    exact head

private theorem aborts_charGroup {p : Reader CodepointSet} {t : List Char} {f : Failure} (negated : Bool)
    (aborts : Aborts (items s false false) t f) (start : negated = false → ¬ ['^'] <+: t) :
    (charGroup s p).Aborts (if negated then '^' :: t else t) f := by
  have circumflex : (token "^").Takes ('^' :: t) () t := takes_token.mpr (by simp)
  cases negated with
  | false =>
    have other : (notAhead (token "^") ["not ^"]).Takes t () t :=
      takes_notAhead.mpr ⟨rejects_token.mpr (by simpa using start rfl), rfl⟩
    have positive : (positiveGroup s).Aborts t f := .behind other (Aborts.map aborts _)
    exact positive.orElse.andThen.map _
  | true =>
    have positive : (positiveGroup s).Rejects ('^' :: t) :=
      rejects_skipThen.mpr (.inl (rejects_notAhead.mpr ⟨(), t, circumflex⟩))
    have negative : (negativeGroup s).Aborts ('^' :: t) f := .behind circumflex (Aborts.map aborts _)
    exact (Aborts.otherwise positive negative).andThen.map _

/-- Behind a single character the two hyphens are refused, wherever the group is read. -/
theorem aborts_hyphenated (commits : s.commits = true)
    (formed : (hyphenated negated (front ++ [last]) ['\\', '-'] except).WellFormed s.dialect)
    (noHyphen : last.text ≠ ['-']) (single : last.isSingle = true) (k : Nat) :
    Aborts (classExpr s (k + 1)) (hyphenated negated (front ++ [last]) ['-'] except).text
      ⟨.ofList (last.text ++ '-' :: '-' :: except.text ++ [']']), .violation .hyphenEndpoint⟩ := by
  obtain ⟨⟨_, each, fit, noCircumflex⟩, _⟩ := formed
  have body : ∀ item ∈ front ++ [last], item.WellFormed s.dialect :=
    fun item member => each item (List.mem_append_left _ member)
  have lastFormed : last.WellFormed s.dialect := body last (by simp)
  rw [List.append_assoc] at fit
  have gives (after : Bool) : (item s after).Aborts (last.text ++ '-' :: '-' :: except.text ++ [']'])
      ⟨.ofList (last.text ++ '-' :: '-' :: except.text ++ [']']), .violation .hyphenEndpoint⟩ := by
    cases last with
    | single u c =>
      have broken := aborts_item_two_hyphens after (x := except.text ++ [']']) lastFormed noHyphen commits
      simpa [ClassItem.text] using broken
    | range => cases single
    | escape => cases single
  have items := aborts_items (v := '-' :: '-' :: except.text ++ [']']) body (by simp)
    (fit_front lastFormed noHyphen fit) (by simpa using gives) false
  have group := aborts_charGroup (p := classExpr s k) negated items fun positive => ?_
  · have whole : (enclosed s "[" (some (charGroup s (classExpr s k))) "]").Aborts _ _ := group.enclosed
    change (enclosed s "[" (some (charGroup s (classExpr s k))) "]").Aborts _ _
    cases negated <;>
      simpa [hyphenated, ClassSyntax.text, ClassGroup.text, itemsText, ClassItem.text] using whole
  · rw [circumflex_iff (by simp) body]
    intro given
    obtain ⟨item, head, circumflex⟩ := given
    refine noCircumflex positive item ?_ circumflex
    rw [List.head?_append_of_ne_nil _ (by simp)]
    exact head

private theorem parse_of_aborts {t : List Char} {f : Failure} (aborts : Aborts (classExpr s s.nestLimit) t f)
    (opening : ['['] <+: t) :
    parse s (String.ofList t) = .error (.ofFailure (String.ofList t) f) := by
  obtain ⟨u, same⟩ := opening
  have noEscape : ¬ ['\\'] <+: t := by simp [← same]
  have charAtom : (charAtom s (classExpr s s.nestLimit)).Aborts t f := by
    refine .firstOf (rfl : _ = [_, _] ++ _ :: _) ?_ (aborts.map _)
    simp only [List.forall_mem_cons, rejects_map]
    exact ⟨rejects_escapedChar noEscape, rejects_classEscape noEscape, List.forall_mem_nil _⟩
  have atom : (atom s (classExpr s s.nestLimit) (groupReader s s.nestLimit)).Aborts t f := by
    refine .firstOf (rfl : _ = [_] ++ _ :: _) ?_ charAtom
    simp only [List.forall_mem_singleton, rejects_map]
    refine rejects_normalChar fun c head => ?_
    rw [← same] at head
    cases head
    exact metacharacter_start (by decide)
  have branch : (branch s _).Aborts t f := (atom.andThen.map _).recorded.many.map _
  have whole : (Reader.thenSkip (regexp s s.nestLimit) atEnd).Aborts t f := by
    rw [regexp_eq]
    exact (branch.andThen.map _).andThen
  unfold Aborts at whole
  unfold parse pattern
  simp only [String.toList_ofList, whole]

/-- Let a class expression end in a hyphen with a backslash and the subtraction of an expression, and let
what stands before be no hyphen without a backslash. Without the backslash the pattern has the same tree
behind a range or an escape. Behind a single character it is refused where that character stands. -/
theorem hyphen_before_subtraction (d : Dialect) (n : Nat) (negated : Bool) (front : List ClassItem)
    (last : ClassItem) (except : ClassSyntax)
    (formed : (hyphenated negated (front ++ [last]) ['\\', '-'] except).WellFormed d)
    (deep : (hyphenated negated (front ++ [last]) ['\\', '-'] except).depth ≤ n)
    (noHyphen : last.text ≠ ['-']) :
    ∃ set : CodepointSet,
      (∀ c, set.contains c = true ↔
        (hyphenated negated (front ++ [last]) ['\\', '-'] except).Denotes c) ∧
      parse (limited d n) (String.ofList (hyphenated negated (front ++ [last]) ['\\', '-'] except).text) =
        .ok (.ofSet set) ∧
      parse (limited d n) (String.ofList (hyphenated negated (front ++ [last]) ['-'] except).text) =
        if last.isSingle then
          .error ⟨String.ofList (hyphenated negated (front ++ [last]) ['-'] except).text,
            (ClassGroup.text ⟨negated, front⟩).length + 1, .violation .hyphenEndpoint⟩
        else .ok (.ofSet set) := by
  refine ⟨(hyphenated negated (front ++ [last]) ['\\', '-'] except).set, fun c => ?_,
    parse_classSyntax formed deep, ?_⟩
  · rw [CodepointSet.contains_iff_mem, ClassSyntax.mem_set]
  cases single : last.isSingle with
  | false =>
    have same : (hyphenated negated (front ++ [last]) ['-'] except).set =
        (hyphenated negated (front ++ [last]) ['\\', '-'] except).set := by
      simp [hyphenated, ClassSyntax.set, ClassGroup.set, ClassItem.set]
    rw [if_neg Bool.false_ne_true, ← same]
    exact parse_classSyntax (hyphenated_wellFormed formed noHyphen single) deep
  | true =>
    obtain ⟨k, rfl⟩ := Nat.exists_eq_add_of_le' (Nat.le_of_add_left_le deep)
    have refused := parse_of_aborts (s := limited d (k + 1)) (aborts_hyphenated rfl formed noHyphen single k)
      (ClassSyntax.opening _)
    rw [if_pos rfl, refused]
    simp only [PatternError.ofFailure, ← String.length_toList, String.toList_ofList, Unread.size_ofList]
    rw [hyphenated_text, List.length_append, Nat.add_sub_cancel, List.length_cons]

theorem hyphen_before_subtraction_behind_newline :
    (hyphenated true ([.range ['x'] 'x' ['z'] 'z'] ++ [.single ['\\', 'n'] '\n']) ['\\', '-']
      (.plain ⟨false, [.single ['b'] 'b']⟩)).WellFormed .xsd ∧ 2 ≤ 100 ∧ ['\\', 'n'] ≠ ['-'] ∧
    (∃ set, parse (limited .xsd 100) "[^x-z\\n\\--[b]]" = .ok (.ofSet set)) ∧
    parse (limited .xsd 100) "[^x-z\\n--[b]]" =
      .error ⟨"[^x-z\\n--[b]]", 5, .violation .hyphenEndpoint⟩ := by
  have formed : (hyphenated true ([.range ['x'] 'x' ['z'] 'z'] ++ [.single ['\\', 'n'] '\n']) ['\\', '-']
      (.plain ⟨false, [.single ['b'] 'b']⟩)).WellFormed .xsd := by
    have letter (c : Char) (plain : c ∉ ['\\', '[', ']']) : ClassCharText .xsd [c] c := .unescaped plain
    have hyphen : ClassCharText .xsd ['\\', '-'] '-' := .escaped (.itself (by simp [escapable_xsd]))
    refine ⟨⟨by decide, ?_, ?_, by decide⟩, by decide, ?_, ?_, fun _ => by simp [ClassItem.text]⟩
    · simp only [List.cons_append, List.nil_append, List.forall_mem_cons]
      exact ⟨⟨letter 'x' (by decide), letter 'z' (by decide), by decide, by decide, by decide⟩,
        .escaped .newline, hyphen, List.forall_mem_nil _⟩
    · simp [FitTogether, ClassItem.FitsBetween, ClassItem.isSingle, ClassItem.text, itemsText,
        ClassSyntax.text]
    · exact List.forall_mem_singleton.mpr (letter 'b' (by decide))
    · simp [FitTogether, ClassItem.FitsBetween, ClassItem.text, itemsText]
  obtain ⟨set, _, escaped, bare⟩ := hyphen_before_subtraction .xsd 100 true [.range ['x'] 'x' ['z'] 'z']
    (.single ['\\', 'n'] '\n') _ formed (by decide) (by decide)
  exact ⟨formed, by decide, by decide, ⟨set, escaped⟩, bare⟩

end Pattern

end SchemaRegex

import SchemaRegex.Pattern.Parse
import SchemaRegex.Proofs.Pattern.Breaking
import SchemaRegex.Proofs.Pattern.ClassText

/-!
# Which readers find rules broken

Readers of characters only ask for tokens, and so do those of single items and of the names of categories.
The items of a class expression break a rule where one of them does. A pattern is refused for a broken
rule where its expression breaks it.
-/

namespace SchemaRegex.Pattern

open Reader

variable {s : Settings} {t r : List Char} {v : Violation}

theorem breaksNothing_normalChar (d : Dialect) : (normalChar d).BreaksNothing :=
  breaksNothing_anyChar.satisfying _ _

theorem breaksNothing_escapedChar (d : Dialect) : (escapedChar d).BreaksNothing := by
  have letter (text : String) (c : Char) : ((token text).as c).BreaksNothing :=
    (breaksNothing_token text).map fun _ => c
  exact (breaksNothing_token "\\").andThen fun _ =>
    (((letter "n" '\n').orElse (letter "r" '\r')).orElse (letter "t" '\t')).orElse
      (breaksNothing_oneOf d.escapable)

theorem breaksNothing_classChar (d : Dialect) : (classChar d).BreaksNothing :=
  (breaksNothing_escapedChar d).orElse (breaksNothing_anyChar.satisfying _ _)

theorem breaksNothing_digit : digit.BreaksNothing := breaksNothing_anyChar.satisfying _ _

theorem breaksNothing_letterEscape : letterEscape.BreaksNothing :=
  ((breaksNothing_token _).andThen fun _ => breaksNothing_oneOf _).map _

theorem breaksNothing_name : (consumed nameChar.many1).BreaksNothing :=
  (breaksNothing_anyChar.satisfying _ _).many1.consumed

/-- The names that the reader finds are all known. -/
theorem breaksNothing_category : (category s).BreaksNothing := by
  intro t v r breaks
  obtain ⟨p, ps, readers, same⟩ := category_eq s
  rw [same] at breaks
  obtain ⟨q, member, breaks⟩ := breaks.of_firstOf
  rw [← readers] at member
  obtain ⟨group, _, same⟩ := List.mem_map.mp member
  rw [← same] at breaks
  obtain never | ⟨_, name, _, takes, missing⟩ := breaks.of_resolve
  · have nothing := (breaksNothing_token group.name).andThen fun a =>
      (breaksNothing_oneOf group.letters).opt.map fun b => (a, b)
    exact nothing.consumed t v r never
  · obtain ⟨set, known⟩ :=
      Option.isSome_iff_exists.mp (Unicode.category?_isSome (mem_categoryNames_of_takes takes))
    rw [categoryNamed_eq_ok.mpr known] at missing
    cases missing

theorem breaksNothing_endOfItems : endOfItems.BreaksNothing :=
  ((breaksNothing_token _).orElse (breaksNothing_token _)).peek

theorem breaksNothing_rangeTail : rangeTail.BreaksNothing :=
  (breaksNothing_token _).andThen fun _ => breaksNothing_anyChar.satisfying _ _

theorem breaksNothing_charAfterSingle (d : Dialect) : (charAfterSingle d).BreaksNothing := by
  have hyphen := ((breaksNothing_token "-").thenSkip
    ((breaksNothing_token "[").notAhead ["not ["])).thenSkip breaksNothing_endOfItems
  exact (hyphen.map _).orElse (((breaksNothing_token _).notAhead _).andThen
    fun _ => breaksNothing_classChar d)

theorem breaksNothing_loneChar (d : Dialect) (after : Bool) : (loneChar d after).BreaksNothing := by
  have first : (if after then charAfterSingle d else classChar d).BreaksNothing := by
    cases after
    · exact breaksNothing_classChar d
    · exact breaksNothing_charAfterSingle d
  exact first.thenSkip (breaksNothing_rangeTail.notAhead _)

theorem breaksNothing_endpoint (d : Dialect) : (endpoint d).BreaksNothing :=
  ((breaksNothing_token _).map _).orElse ((breaksNothing_classChar d).map _)

/-- A rule is broken by the first item, or by the items behind it. -/
theorem Reader.Breaks.of_items {started after : Bool} (breaks : Breaks (items s started after) t v r) :
    (item s after).Breaks t v r ∨ ∃ value u, (item s after).Takes t value u ∧ u.length < t.length ∧
      Breaks (items s true value.2) u v r := by
  unfold Breaks at breaks
  rw [items] at breaks
  cases first : (item s after (.ofList t)).outcome with
  | accepted value rest =>
    simp only [first] at breaks
    split at breaks
    · rename_i shorter
      rw [rest.size_eq] at shorter
      have behind (later : (items s true value.2 rest).Reports ⟨.ofList r, .violation v⟩) :
          ∃ value u, (item s after).Takes t value u ∧ u.length < t.length ∧
            Breaks (items s true value.2) u v r :=
        ⟨value, rest.chars, .of_accepted first, shorter, .of_reports later⟩
      split at breaks
      · exact .inl (reports_of_mem_trail (reports_accepted.mp breaks))
      · cases others : (items s true value.2 rest).outcome with
        | accepted sets last =>
          simp only [others, reports_accepted, List.mem_append] at breaks
          exact breaks.imp reports_of_mem_trail fun later => behind (reports_of_mem_trail later)
        | rejected f =>
          simp only [others, reports_rejected, List.mem_append] at breaks
          obtain same | before | later := breaks
          · exact .inr (behind (reports_of_rejected others (.inl same)))
          · exact .inl (reports_of_mem_trail before)
          · exact .inr (behind (reports_of_mem_trail later))
        | aborted f =>
          simp only [others, reports_aborted, List.mem_append] at breaks
          obtain same | before | later := breaks
          · exact .inr (behind (reports_of_aborted others (.inl same)))
          · exact .inl (reports_of_mem_trail before)
          · exact .inr (behind (reports_of_mem_trail later))
    · simp only [reports_rejected, Failure.mk.injEq, reduceCtorEq, and_false, false_or] at breaks
      exact .inl (reports_of_mem_trail breaks)
  | rejected f =>
    simp only [first, reports_rejected] at breaks
    refine .inl (reports_of_rejected first (breaks.imp (fun same => ?_) id))
    split at same
    · obtain own | closing := Failure.eq_of_merge same
      · exact own
      · cases closing
    · exact same
  | aborted f =>
    simp only [first, reports_aborted] at breaks
    exact .inl (reports_of_aborted first breaks)

/-- If each step keeps what there is or takes the next element, so does the whole fold. -/
theorem eq_or_mem_of_foldl {α : Type} {step : Option α → α → Option α}
    (one : ∀ best a, step best a = best ∨ step best a = some a) {as : List α} {best : Option α} {a : α}
    (last : as.foldl step best = some a) : best = some a ∨ a ∈ as := by
  induction as generalizing best with
  | nil => exact .inl last
  | cons b as ih =>
    obtain next | later := ih last
    · obtain same | same := one best b
      · exact .inl (same ▸ next)
      · rw [same] at next
        exact .inr (Option.some.inj next ▸ List.mem_cons_self)
    · exact .inr (List.mem_cons_of_mem b later)

theorem Failure.mem_of_deepest? {fs : List Failure} {f : Failure} (deepest : deepest? fs = some f) :
    f ∈ fs := by
  refine (eq_or_mem_of_foldl (fun best g => ?_) deepest).elim (fun none => by cases none) id
  cases best with
  | none => exact .inr rfl
  | some b =>
    simp only
    split
    · exact .inr rfl
    · exact .inl rfl

theorem reports_of_pattern {f : Failure}
    (fails : pattern s (.ofList t) = .rejected f ∨ pattern s (.ofList t) = .aborted f) :
    (Reader.thenSkip (regexp s s.nestLimit) atEnd (.ofList t)).Reports f := by
  unfold pattern at fails
  cases whole : (Reader.thenSkip (regexp s s.nestLimit) atEnd (.ofList t)).outcome with
  | accepted r rest => simp [whole] at fails
  | rejected g =>
    refine reports_of_rejected whole ?_
    simp only [whole] at fails
    split at fails
    · rename_i h deepest
      have recorded := Failure.mem_of_deepest? deepest
      obtain same | other := fails
      · injection same with same
        split at same
        · exact .inr (same ▸ recorded)
        · exact .inl same
      · cases other
    · obtain same | other := fails
      · injection same with same
        exact .inl same
      · cases other
  | aborted g =>
    refine reports_of_aborted whole (.inl ?_)
    simp only [whole, reduceCtorEq, Outcome.aborted.injEq, false_or] at fails
    exact fails

theorem exists_failure_of_parse {text : String} {e : PatternError} (failed : parse s text = .error e) :
    ∃ f, (pattern s (.ofList text.toList) = .rejected f ∨ pattern s (.ofList text.toList) = .aborted f) ∧
      PatternError.ofFailure text f = e := by
  unfold parse at failed
  cases outcome : pattern s (.ofList text.toList) with
  | accepted q rest => simp [outcome] at failed
  | rejected f => exact ⟨f, .inl rfl, by simpa [outcome] using failed⟩
  | aborted f => exact ⟨f, .inr rfl, by simpa [outcome] using failed⟩

/-- What the error says can be evaluated without the tree. -/
theorem parse_eq_error {text : String} {e : PatternError}
    (told : (parse s text).map (fun _ => ()) = .error e) : parse s text = .error e := by
  cases failed : parse s text with
  | ok r =>
    rw [failed] at told
    cases told
  | error g =>
    rw [failed] at told
    injection told with same
    rw [same]

/-- The pattern is refused for a broken rule where its expression breaks it. -/
theorem breaks_of_parse {text : String} {e : PatternError} (failed : parse s text = .error e)
    (cause : e.cause = .violation v) :
    ∃ r, Breaks (regexp s s.nestLimit) text.toList v r ∧ e.offset = text.length - r.length := by
  obtain ⟨⟨rest, reason⟩, fails, same⟩ := exists_failure_of_parse failed
  subst same
  cases reason with
  | expected tokens => cases cause
  | violation w =>
    cases cause
    have reported := reports_of_pattern fails
    rw [← rest.ofList_chars] at reported
    refine ⟨rest.chars, ?_, congrArg (text.length - ·) rest.size_eq⟩
    obtain breaks | ⟨_, u, _, never⟩ := Breaks.of_thenSkip reported
    · exact breaks
    · exact absurd never (breaksNothing_atEnd u _ _)

end SchemaRegex.Pattern

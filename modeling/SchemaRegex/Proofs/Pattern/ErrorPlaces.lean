import Mathlib.Data.List.Basic
import SchemaRegex.Proofs.Pattern.Offences
import SchemaRegex.Proofs.Pattern.Soundness

/-!
# Errors for broken rules

What a reader takes leaves no bracket open, and where it finds a rule broken, the text shows the offence
(`Exposes`). Both hold of each reader where it is started: behind the brackets that it may be in, with
room for as many others as it may open. An expression starts with no bracket open; so an error for a
broken rule points at an offence (`violations_show_offences`).
-/

namespace SchemaRegex.Pattern

open Reader Nesting

private def Nesting.HasRoom (o : Nesting) (s : Settings) (k : Nat) : Prop := o.count + k = s.nestLimit

private theorem Nesting.HasRoom.full {s : Settings} {o : Nesting} {c : Char} (room : o.HasRoom s 0)
    (opens : (o.step c).count = o.count + 1) :
    o.count = s.nestLimit ∧ (o.step c).count = s.nestLimit + 1 :=
  ⟨room, opens.trans (congrArg (· + 1) room)⟩

private theorem Nesting.HasRoom.step {s : Settings} {k : Nat} {o : Nesting} {c : Char}
    (room : o.HasRoom s (k + 1)) (opens : (o.step c).count = o.count + 1) :
    (o.step c).HasRoom s k := by
  unfold HasRoom at room ⊢
  omega

structure Nesting.AtExpression (s : Settings) (k : Nat) (o : Nesting) : Prop where
  outside : o.Outside
  room : o.HasRoom s k

private def Closes (start : Nesting → Prop) (t u : List Char) : Prop :=
  ∃ w, t = w ++ u ∧ ∀ o, start o → o.after w = o

private theorem Closes.refl {start : Nesting → Prop} {t : List Char} : Closes start t t :=
  ⟨[], rfl, fun _ _ => rfl⟩

private theorem Closes.trans {start : Nesting → Prop} {t u v : List Char} (first : Closes start t u)
    (second : Closes start u v) : Closes start t v := by
  obtain ⟨w, front, closed⟩ := first
  obtain ⟨z, behind, closedToo⟩ := second
  refine ⟨w ++ z, by rw [front, behind, List.append_assoc], fun o here => ?_⟩
  rw [after_append, closed o here, closedToo o here]

/-- An offence further on is one of the whole text. -/
theorem Closes.offence {s : Settings} {start : Nesting → Prop} {t u r x : List Char} {v : Violation}
    (closes : Closes start t u) (here : start (opened x))
    (later : ∀ y, start (opened y) → ∃ w, u = w ++ r ∧ Offence s v (y ++ w) r) :
    ∃ w, t = w ++ r ∧ Offence s v (x ++ w) r := by
  obtain ⟨w, front, closed⟩ := closes
  have again : start (opened (x ++ w)) := by rwa [opened_append, closed _ here]
  obtain ⟨z, behind, offence⟩ := later (x ++ w) again
  refine ⟨w ++ z, by rw [front, behind, List.append_assoc], ?_⟩
  rwa [← List.append_assoc]

/-- Started where the open brackets are as told, the reader closes what it opens. Where it finds a rule
broken, the text shows the offence. -/
structure Exposes {α : Type} (s : Settings) (start : Nesting → Prop) (p : Reader α) : Prop where
  takes : ∀ {t a v}, p.Takes t a v → Closes start t v
  breaks : ∀ {t v r}, p.Breaks t v r →
    ∀ x, start (opened x) → ∃ w, t = w ++ r ∧ Offence s v (x ++ w) r

namespace Exposes

variable {s : Settings} {start inside : Nesting → Prop} {α β : Type} {p : Reader α} {q : Reader β}

/-- A reader that only asks for tokens. -/
theorem of_breaksNothing (nothing : p.BreaksNothing)
    (takes : ∀ {t a v}, p.Takes t a v → Closes start t v) : Exposes s start p :=
  ⟨takes, fun never => absurd never (nothing _ _ _)⟩

private theorem mono (exposes : Exposes s inside p) (weaker : ∀ o, start o → inside o) :
    Exposes s start p where
  takes := fun takes => by
    obtain ⟨w, same, closed⟩ := exposes.takes takes
    exact ⟨w, same, fun o here => closed o (weaker o here)⟩
  breaks := fun breaks x here => exposes.breaks breaks x (weaker _ here)

private theorem accept (a : α) : Exposes s start (Reader.accept a) :=
  of_breaksNothing (fun _ _ _ never => not_breaks_accept never)
    fun takes => (takes_accept.mp takes).2 ▸ .refl

private theorem token {text : String} (closed : ∀ o, start o → o.after text.toList = o) :
    Exposes s start (Reader.token text) :=
  of_breaksNothing (breaksNothing_token text) fun takes => ⟨text.toList, takes_token.mp takes, closed⟩

private theorem andThen {next : α → Reader β} (first : Exposes s start p)
    (second : ∀ a, Exposes s start (next a)) : Exposes s start (p.andThen next) where
  takes := fun takes => by
    obtain ⟨a, u, takes, more⟩ := takes_andThen.mp takes
    exact (first.takes takes).trans ((second a).takes more)
  breaks := fun breaks x here => by
    obtain now | ⟨a, u, takes, later⟩ := breaks.of_andThen
    · exact first.breaks now x here
    · exact (first.takes takes).offence here ((second a).breaks later)

private theorem map (exposes : Exposes s start p) (f : α → β) : Exposes s start (p.map f) :=
  exposes.andThen fun a => accept (f a)

private theorem pair (first : Exposes s start p) (second : Exposes s start q) : Exposes s start (p.pair q) :=
  first.andThen fun _ => second.map _

private theorem skipThen (first : Exposes s start p) (second : Exposes s start q) :
    Exposes s start (p.skipThen q) :=
  first.andThen fun _ => second

private theorem orElse {q : Reader α} (first : Exposes s start p) (second : Exposes s start q) :
    Exposes s start (p.orElse q) where
  takes := fun takes => by
    obtain takes | ⟨_, takes⟩ := takes_orElse.mp takes
    · exact first.takes takes
    · exact second.takes takes
  breaks := fun breaks => by
    obtain breaks | ⟨_, breaks⟩ := breaks.of_orElse
    · exact first.breaks breaks
    · exact second.breaks breaks

private theorem firstOf {ps : List (Reader α)} (exposes : ∀ q ∈ p :: ps, Exposes s start q) :
    Exposes s start (Reader.firstOf p ps) :=
  firstOf_of_forall orElse exposes

private theorem opt (exposes : Exposes s start p) : Exposes s start p.opt where
  takes := fun {t a v} takes => by
    cases a with
    | none => exact (takes_opt_none.mp takes).2 ▸ .refl
    | some a => exact exposes.takes (takes_opt_some.mp takes)
  breaks := fun breaks => exposes.breaks breaks.of_opt

private theorem cut (exposes : Exposes s start p) (commits : Bool) :
    Exposes s start (Reader.cut commits p) where
  takes := fun takes => exposes.takes (takes_cut.mp takes)
  breaks := fun breaks => exposes.breaks breaks.of_cut

private theorem recorded (exposes : Exposes s start p) : Exposes s start p.recorded where
  takes := fun takes => exposes.takes (takes_recorded.mp takes)
  breaks := fun breaks => exposes.breaks breaks.of_recorded

private theorem guarded {enabled : Bool} (exposes : enabled = true → Exposes s start p) :
    Exposes s start (Reader.guarded enabled p) where
  takes := fun takes => (exposes (takes_guarded.mp takes).1).takes (takes_guarded.mp takes).2
  breaks := fun breaks => (exposes breaks.of_guarded.1).breaks breaks.of_guarded.2

private theorem many (exposes : Exposes s start p) : Exposes s start (Reader.many p) where
  takes := fun {t values v} takes => by
    induction values generalizing t with
    | nil => exact (takes_many_nil.mp takes).2 ▸ .refl
    | cons a values ih =>
      obtain ⟨u, first, _, others⟩ := takes_many_cons.mp takes
      exact (exposes.takes first).trans (ih others)
  breaks := fun {t v r} breaks x here => by
    induction size : t.length using Nat.strongRecOn generalizing t x with
    | ind n ih =>
      obtain now | ⟨_, u, takes, shorter, later⟩ := Breaks.of_many breaks
      · exact exposes.breaks now x here
      · exact (exposes.takes takes).offence here fun y again =>
          ih u.length (size ▸ shorter) later y again rfl

/-- Brackets, with a mark behind the opening one or without. Without a reader for what is in them they
are nested too deep already. -/
theorem enclosed {opening closing : String} {bracket : Char} {mark : List Char}
    {inner : Option (Reader α)} (form : opening.toList = bracket :: mark)
    (kind : bracket = '(' ∨ bracket = '[')
    (full : inner = none → ∀ o : Nesting, start o →
      o.count = s.nestLimit ∧ (o.step bracket).count = s.nestLimit + 1)
    (within : ∀ p ∈ inner, ∃ inside, Exposes s inside p ∧ ∀ o : Nesting, start o →
      inside (o.after opening.toList) ∧ (o.after opening.toList).after closing.toList = o) :
    Exposes s start (Reader.enclosed s opening inner closing) where
  takes := fun {t a v} takes => by
    obtain ⟨p, reader, u, front, takes⟩ := takes_enclosed.mp takes
    obtain ⟨inside, exposes, opens⟩ := within p reader
    obtain ⟨w, same, closed⟩ := exposes.takes takes
    refine ⟨opening.toList ++ w ++ closing.toList, by simp [front, same], fun o here => ?_⟩
    obtain ⟨entered, left⟩ := opens o here
    rw [after_append, after_append, closed _ entered, left]
  breaks := fun {t v r} breaks x here => by
    obtain ⟨u, front, ⟨none, limit, place⟩ | ⟨p, reader, breaks⟩⟩ := breaks.of_enclosed
    · obtain ⟨before, behind⟩ := full none _ here
      rw [form] at front
      subst limit place front
      have opens : openBrackets (x ++ [bracket]) = s.nestLimit + 1 := by
        rw [openBrackets, after_append]
        exact behind
      exact ⟨[], rfl, by simpa using Offence.nestingTooDeep kind before opens⟩
    · obtain ⟨inside, exposes, opens⟩ := within p reader
      have entered : inside (opened (x ++ opening.toList)) := by
        rw [opened_append]
        exact (opens _ here).1
      obtain ⟨w, same, offence⟩ := exposes.breaks breaks (x ++ opening.toList) entered
      refine ⟨opening.toList ++ w, by rw [front, same, List.append_assoc], ?_⟩
      rwa [← List.append_assoc]

end Exposes

variable {s : Settings} {k : Nat}

private theorem exposes_neutral {start : Nesting → Prop} {text : String}
    (unescaped : ∀ o : Nesting, start o → o.escaped = false) (neutral : ∀ c ∈ text.toList, Neutral c) :
    Exposes s start (Reader.token text) :=
  .token fun o here => after_of_neutral (unescaped o here) neutral

private theorem exposes_escapedChar : Exposes s (fun o => o.escaped = false) (escapedChar s.dialect) := by
  refine .of_breaksNothing (breaksNothing_escapedChar _) fun takes => ?_
  obtain ⟨w, front, escape⟩ := takes_escapedChar.mp takes
  exact ⟨w, front, fun o unescaped => escape.after_eq unescaped⟩

private theorem exposes_classEscape : Exposes s (fun o => o.escaped = false) (classEscape s) where
  takes := fun takes => by
    obtain ⟨w, front, escape⟩ := takes_classEscape.mp takes
    exact ⟨w, front, fun o unescaped => escape.after_eq unescaped⟩
  breaks := fun breaks _ unescaped => offence_of_breaks_classEscape breaks unescaped

private theorem exposes_quantifier : Exposes s Nesting.Outside (quantifier s) where
  takes := fun takes => by
    obtain ⟨w, front, text⟩ := quantifierText_of_takes takes
    exact ⟨w, front, fun o outside => text.after_eq outside.2⟩
  breaks := fun breaks _ outside => offence_of_breaks_quantifier breaks outside

private theorem exposes_backreference (xpath : s.dialect = .xpath) :
    Exposes s Nesting.Outside (backreference s) where
  takes := fun takes => by
    obtain ⟨_, _, fails⟩ := takes_resolve.mp takes
    cases fails
  breaks := fun breaks x outside => by
    obtain ⟨place, offence⟩ := offence_of_breaks_backreference breaks xpath outside
    exact ⟨[], place.symm, by rwa [List.append_nil]⟩

private theorem exposes_charRange : Exposes s Nesting.Inside (charRange s) where
  takes := fun takes => by
    obtain ⟨u, w, _, _, same, first, _, last, _⟩ := takes_charRange.mp takes
    refine ⟨u ++ '-' :: w, same, fun o inside => ?_⟩
    rw [after_append, first.after_eq inside, after_cons, inside.step_of_not_mem (by decide),
      last.after_eq inside]
  breaks := fun breaks x inside => by
    obtain ⟨place, offence⟩ := offence_of_breaks_charRange breaks inside
    exact ⟨[], place.symm, by rwa [List.append_nil]⟩

private theorem exposes_item (after : Bool) : Exposes s Nesting.Inside (item s after) := by
  refine .orElse (.map (.of_breaksNothing (breaksNothing_loneChar _ _) fun takes => ?_) _)
    (.map (.orElse exposes_charRange (exposes_classEscape.mono fun _ inside => inside.2)) _)
  obtain ⟨w, front, text, _⟩ := takes_loneChar.mp takes
  exact ⟨w, front, fun o inside => text.after_eq inside⟩

private theorem exposes_items (started after : Bool) : Exposes s Nesting.Inside (items s started after) where
  takes := fun takes => (takes_items.mp takes).after_eq
  breaks := fun {t v r} breaks x inside => by
    induction size : t.length using Nat.strongRecOn generalizing t x started after with
    | ind n ih =>
      obtain now | ⟨⟨_, single⟩, u, takes, shorter, later⟩ := Breaks.of_items breaks
      · exact (exposes_item after).breaks now x inside
      · exact ((exposes_item after).takes takes).offence inside fun y again =>
          ih u.length (size ▸ shorter) true single later y again rfl

private theorem exposes_charGroup {p : Reader CodepointSet}
    (except : Exposes s (fun o => o.escaped = false ∧ o.HasRoom s k) p) :
    Exposes s (fun o => o.Inside ∧ o.HasRoom s k) (charGroup s p) := by
  have mark {text : String} (neutral : ∀ c ∈ text.toList, Neutral c) :
      Exposes s Nesting.Inside (Reader.token text) :=
    exposes_neutral (fun _ inside => inside.2) neutral
  have noCircumflex : Exposes s Nesting.Inside ((token "^").notAhead ["not ^"]) :=
    .of_breaksNothing ((breaksNothing_token _).notAhead _)
      fun takes => (takes_notAhead.mp takes).2 ▸ .refl
  have positive : Exposes s Nesting.Inside (positiveGroup s) :=
    noCircumflex.skipThen ((exposes_items _ _).map _)
  have negative : Exposes s Nesting.Inside (negativeGroup s) :=
    (mark (by simp [Neutral])).skipThen ((exposes_items _ _).map _)
  have minus : Exposes s Nesting.Inside (Reader.token "-") := mark (by simp [Neutral])
  refine .map (.pair ((positive.orElse negative).mono fun _ here => here.1) (.opt ?_)) _
  exact (minus.mono fun _ here => here.1).skipThen (except.mono fun _ here => ⟨here.1.2, here.2⟩)

private theorem exposes_classExpr (k : Nat) :
    Exposes s (fun o => o.escaped = false ∧ o.HasRoom s k) (classExpr s k) := by
  have form : "[".toList = ['['] := by simp
  induction k with
  | zero =>
    change Exposes s _ (enclosed s "[" none "]")
    refine .enclosed form (.inr rfl) (fun _ o here => ?_) fun p reader => by cases reader
    exact here.2.full (count_opening here.1)
  | succ k ih =>
    change Exposes s _ (enclosed s "[" (some (charGroup s (classExpr s k))) "]")
    refine .enclosed form (.inr rfl) (fun none => by cases none) fun p reader => ?_
    cases reader
    refine ⟨_, exposes_charGroup ih, fun o here => ?_⟩
    have entered : o.after "[".toList = o.step '[' := by rw [form, after_cons, after_nil]
    have closes : (o.step '[').after "]".toList = (o.step '[').step ']' := by simp
    rw [entered, closes, step_closing_opening here.1]
    exact ⟨⟨inside_opening here.1, here.2.step (count_opening here.1)⟩, rfl⟩

private theorem exposes_charAtom : Exposes s (AtExpression s k) (charAtom s (classExpr s k)) := by
  refine .firstOf ?_
  simp only [List.forall_mem_cons]
  refine ⟨.map ?_ _, .map ?_ _, .map ?_ _, .map ?_ _, List.forall_mem_nil _⟩
  · exact exposes_escapedChar.mono fun o here => here.outside.2
  · exact exposes_classEscape.mono fun o here => here.outside.2
  · exact (exposes_classExpr k).mono fun o here => ⟨here.outside.2, here.room⟩
  · exact exposes_neutral (fun o here => here.outside.2) (by simp [Neutral])

private theorem exposes_group {opening : String} {mark : List Char} (form : opening.toList = '(' :: mark)
    (neutral : ∀ c ∈ mark, Neutral c)
    (inside : ∀ m, k = m + 1 → Exposes s (AtExpression s m) (regexp s m)) :
    Exposes s (AtExpression s k) (enclosed s opening (groupReader s k) ")") := by
  refine .enclosed form (.inl rfl) (fun reached o here => ?_) fun p reader => ?_
  · cases k with
    | zero => exact here.room.full (count_group here.outside)
    | succ k => cases reached
  · cases k with
    | zero => cases reader
    | succ k =>
      cases reader
      refine ⟨_, inside k rfl, fun o here => ?_⟩
      have entered : o.after opening.toList = o.step '(' := by
        rw [form, after_cons, after_of_neutral (outside_group here.outside).2 neutral]
      have closes : (o.step '(').after ")".toList = (o.step '(').step ')' := by simp
      rw [entered, closes, step_groupEnd_group here.outside]
      exact ⟨⟨outside_group here.outside, here.room.step (count_group here.outside)⟩, rfl⟩

private theorem exposes_atom (inside : ∀ m, k = m + 1 → Exposes s (AtExpression s m) (regexp s m)) :
    Exposes s (AtExpression s k) (atom s (classExpr s k) (groupReader s k)) := by
  have sign {text : String} (neutral : ∀ c ∈ text.toList, Neutral c) :
      Exposes s (AtExpression s k) (Reader.token text) :=
    exposes_neutral (fun o here => here.outside.2) neutral
  have marked : "(?:".toList = '(' :: ['?', ':'] := by simp
  refine .firstOf ?_
  simp only [List.forall_mem_cons]
  refine ⟨.map ?_ _, exposes_charAtom, .guarded fun _ => .map (sign (by simp [Neutral])) _,
    .guarded fun _ => .map (sign (by simp [Neutral])) _, .guarded fun xpath => ?_,
    .guarded fun _ => .map (exposes_group marked (by simp [Neutral]) inside) _,
    .map (exposes_group (by simp) (List.forall_mem_nil _) inside) _, List.forall_mem_nil _⟩
  · refine .of_breaksNothing (breaksNothing_normalChar _) fun takes => ?_
    obtain ⟨front, plain⟩ := takes_normalChar.mp takes
    exact ⟨[_], front, fun o here => step_of_plain plain here.outside.2⟩
  · exact (exposes_backreference (of_decide_eq_true xpath)).mono fun o here => here.outside

private theorem exposes_branch {a : Reader Atom} (atom : Exposes s (AtExpression s k) a) :
    Exposes s (AtExpression s k) (branch s a) := by
  have count : Exposes s (AtExpression s k) (quantifier s) :=
    exposes_quantifier.mono fun o here => here.outside
  exact .map (.many (.recorded (.map (.pair atom (.opt count)) _))) _

private theorem exposes_branches {a : Reader Atom} (atom : Exposes s (AtExpression s k) a) :
    Exposes s (AtExpression s k) (branches s a) := by
  have branch := exposes_branch atom
  have bar : Exposes s (AtExpression s k) (Reader.token "|") :=
    exposes_neutral (fun o here => here.outside.2) (by simp [Neutral])
  exact .map (.pair branch (.many (.skipThen bar (.cut branch _)))) _

private theorem exposes_regexp (s : Settings) (k : Nat) : Exposes s (AtExpression s k) (regexp s k) := by
  induction k with
  | zero =>
    rw [regexp_eq]
    exact exposes_branches (exposes_atom fun m depth => by cases depth)
  | succ k ih =>
    rw [regexp_eq]
    refine exposes_branches (exposes_atom fun m depth => ?_)
    cases depth
    exact ih

/-- An error for a broken rule points at an offence. -/
theorem offence_of_parse {s : Settings} {text : String} {e : PatternError} {v : Violation}
    (failed : parse s text = .error e) (cause : e.cause = .violation v) :
    ∃ before behind, text.toList = before ++ behind ∧ e.offset = before.length ∧
      Offence s v before behind := by
  obtain ⟨r, breaks, offset⟩ := breaks_of_parse failed cause
  have start : (opened []).AtExpression s s.nestLimit := ⟨⟨rfl, rfl⟩, Nat.zero_add _⟩
  obtain ⟨w, same, offence⟩ := (exposes_regexp s s.nestLimit).breaks breaks [] start
  refine ⟨w, r, same, ?_, offence⟩
  rw [offset, ← String.length_toList, same, List.length_append, Nat.add_sub_cancel]

private theorem code_eq_unicode {e : PatternError} {v : Violation} (cause : e.cause = .violation v) :
    e.code = if v.isUnicode then "E003" else "E002" := by
  rw [PatternError.code, cause]

/-- Whatever rule an error says to be broken, the text shows the offence where the error points. Names
that are not known have a code of their own. -/
theorem violations_show_offences (s : Settings) {text : String} {e : PatternError} {v : Violation}
    (failed : parse s text = .error e) (cause : e.cause = .violation v) :
    (∃ before behind, text.toList = before ++ behind ∧ e.offset = before.length ∧
      Offence s v before behind) ∧
    ((∃ name, v = .unknownCategory name ∨ v = .unknownBlock name) ∧ e.code = "E003" ∨
      (∀ name, v ≠ .unknownCategory name ∧ v ≠ .unknownBlock name) ∧ e.code = "E002") := by
  refine ⟨offence_of_parse failed cause, ?_⟩
  rw [code_eq_unicode cause]
  cases v with
  | unknownCategory name => exact .inl ⟨⟨name, .inl rfl⟩, rfl⟩
  | unknownBlock name => exact .inl ⟨⟨name, .inr rfl⟩, rfl⟩
  | quantifierOrder | quantifierTooLarge | rangeOrder | hyphenEndpoint | backreference |
    nestingTooDeep =>
    exact .inr ⟨fun name => ⟨Violation.noConfusion, Violation.noConfusion⟩, rfl⟩

/-- A newline comes behind a tab. -/
theorem violations_show_offences_escapedEnds :
    parse {} "a[b\\n-\\t]" = .error ⟨"a[b\\n-\\t]", 3, .violation .rangeOrder⟩ ∧
      ∃ before behind, "a[b\\n-\\t]".toList = before ++ behind ∧ 3 = before.length ∧
        Offence {} .rangeOrder before behind := by
  have failed : parse {} "a[b\\n-\\t]" = .error ⟨"a[b\\n-\\t]", 3, .violation .rangeOrder⟩ :=
    parse_eq_error (by decide +kernel)
  exact ⟨failed, (violations_show_offences {} failed rfl).1⟩

end SchemaRegex.Pattern

import SchemaRegex.Proofs.Pattern.Failing
import SchemaRegex.Proofs.Pattern.InheritedByGroups
import SchemaRegex.Proofs.Pattern.NestingLimit
import SchemaRegex.Report.Error

/-!
# Syntax errors

Where a reader of the grammar rejects a text, or records a failure, it asks for some tokens at a place of
that text; a broken rule is never a reason to go on. Where it gives up, that too is a place of the text
(`Attempt.Instructs`). So a syntax error says what could stand at its place, and that place is the one where
reading failed, counted in characters or in bytes (`syntax_errors_wellFormed`).
-/

namespace SchemaRegex.Pattern

structure Failure.Asks (f : Failure) (t : Unread) : Prop where
  place : f.rest.chars <:+ t.chars
  tokens : ∃ tokens, f.cause = .expected tokens ∧ tokens ≠ []

namespace Failure

variable {f g : Failure} {t u : Unread}

private theorem asks_here {tokens : List String} (some : tokens ≠ []) :
    (Failure.mk t (.expected tokens)).Asks t :=
  ⟨List.suffix_refl _, tokens, rfl, some⟩

private theorem Asks.mono (asks : f.Asks u) (place : u.chars <:+ t.chars) : f.Asks t :=
  ⟨asks.place.trans place, asks.tokens⟩

private theorem Asks.cause_ne (asks : f.Asks t) : f.cause ≠ .expected [] := by
  obtain ⟨tokens, same, some⟩ := asks.tokens
  rw [same]
  exact fun none => some (Cause.expected.inj none)

private theorem Asks.size_le (asks : f.Asks t) : f.rest.size ≤ t.size := by
  rw [f.rest.size_eq, t.size_eq]
  exact asks.place.length_le

private theorem Asks.merge (first : f.Asks t) (second : g.Asks t) : (f.merge g).Asks t := by
  unfold Failure.merge
  split
  · exact second
  split
  · exact first
  split
  · rename_i xs ys left right
    obtain ⟨_, same, some⟩ := first.tokens
    cases left.symm.trans same
    exact ⟨first.place, xs ++ ys, rfl, List.append_ne_nil_of_left_ne_nil some ys⟩
  · exact first

/-- What asks for nothing at the start of the text adds nothing to a failure. -/
theorem Asks.merge_nothing (asks : f.Asks t) : (f.merge ⟨t, .expected []⟩).Asks t := by
  unfold Failure.merge
  split
  · rename_i deeper
    exact absurd asks.size_le (Nat.not_le.mpr deeper)
  split
  · exact asks
  split
  · rename_i xs ys left right
    obtain ⟨_, same, some⟩ := asks.tokens
    cases left.symm.trans same
    exact ⟨asks.place, xs ++ ys, rfl, List.append_ne_nil_of_left_ne_nil some ys⟩
  · exact asks

end Failure

/-- What is left, and where reading failed, are places of the text. A failure asks for something, but for
those that give up because a rule is broken. -/
inductive Attempt.Instructs {α : Type} (t : Unread) : Attempt α → Prop
  | accepted {a : α} {rest : Unread} {trail : List Failure} (place : rest.chars <:+ t.chars)
    (recorded : ∀ f ∈ trail, f.Asks t) : Instructs t ⟨.accepted a rest, trail⟩
  | rejected {f : Failure} {trail : List Failure} (asks : f.Asks t) (recorded : ∀ f ∈ trail, f.Asks t) :
    Instructs t ⟨.rejected f, trail⟩
  | aborted {f : Failure} {trail : List Failure} (place : f.rest.chars <:+ t.chars)
    (cause : f.cause ≠ .expected []) (recorded : ∀ f ∈ trail, f.Asks t) : Instructs t ⟨.aborted f, trail⟩

namespace Attempt.Instructs

variable {α : Type} {t u : Unread} {x : Attempt α}

private theorem recorded (instructs : x.Instructs t) : ∀ f ∈ x.trail, f.Asks t := by
  cases instructs <;> assumption

private theorem asks {f : Failure} (instructs : x.Instructs t) (rejected : x.outcome = .rejected f) :
    f.Asks t := by
  cases instructs <;> cases rejected
  assumption

private theorem of_reports {f : Failure} (instructs : x.Instructs t) (reports : x.Reports f) :
    f.rest.chars <:+ t.chars ∧ f.cause ≠ .expected [] := by
  have recorded := instructs.recorded
  obtain rejected | aborted | member := reports
  · have asks := instructs.asks rejected
    exact ⟨asks.place, asks.cause_ne⟩
  · cases instructs <;> cases aborted
    exact ⟨‹_›, ‹_›⟩
  · exact ⟨(recorded f member).place, (recorded f member).cause_ne⟩

/-- The attempt goes on behind the start of a text, where failures have been recorded. -/
theorem behind {before : List Failure} (recorded : ∀ f ∈ before, f.Asks t) (place : u.chars <:+ t.chars)
    (instructs : x.Instructs u) : (Attempt.mk x.outcome (before ++ x.trail)).Instructs t := by
  have both : ∀ f ∈ before ++ x.trail, f.Asks t :=
    List.forall_mem_append.mpr ⟨recorded, fun f member => (instructs.recorded f member).mono place⟩
  cases instructs with
  | accepted left => exact .accepted (left.trans place) both
  | rejected asks => exact .rejected (asks.mono place) both
  | aborted left cause => exact .aborted (left.trans place) cause both

/-- Only the value is another one. -/
theorem withValue {β : Type} (g : α → β) {outcome : Outcome α} {trail : List Failure}
    (instructs : (Attempt.mk outcome trail).Instructs t) :
    Attempt.Instructs t (match outcome with
      | .accepted a rest => ⟨.accepted (g a) rest, trail⟩
      | .rejected f => ⟨.rejected f, trail⟩
      | .aborted f => ⟨.aborted f, trail⟩) := by
  cases instructs with
  | accepted place recorded => exact .accepted place recorded
  | rejected asks recorded => exact .rejected asks recorded
  | aborted place cause recorded => exact .aborted place cause recorded

private theorem fail {f : Failure} {trail : List Failure} (place : f.rest.chars <:+ t.chars)
    (cause : f.cause ≠ .expected []) (recorded : ∀ f ∈ trail, f.Asks t) :
    (Attempt.mk (.fail true f : Outcome α) trail).Instructs t := .aborted place cause recorded

end Attempt.Instructs

namespace Reader

variable {α β : Type} {p q : Reader α}

private def Instructs (p : Reader α) : Prop := ∀ t, (p t).Instructs t

private theorem recorded_nil {t : Unread} : ∀ f ∈ ([] : List Failure), f.Asks t := List.forall_mem_nil _

private theorem suffix_drop (n : Nat) (t : Unread) :
    (t.drop n).chars <:+ t.chars := List.drop_suffix n t.chars

private theorem instructs_reject {tokens : List String} (some : tokens ≠ []) :
    (reject tokens : Reader α).Instructs := fun _ => .rejected (Failure.asks_here some) recorded_nil

private theorem instructs_token (text : String) : (token text).Instructs := by
  intro t
  unfold token
  split
  · exact .accepted (suffix_drop _ t) recorded_nil
  · exact instructs_reject (List.cons_ne_nil _ _) t

private theorem instructs_anyChar : anyChar.Instructs := by
  intro t
  unfold anyChar
  split
  · exact instructs_reject (List.cons_ne_nil _ _) t
  · exact .accepted (suffix_drop 1 t) recorded_nil

private theorem instructs_oneOf {chars : List Char} (some : chars ≠ []) : (oneOf chars).Instructs := by
  have refuses : (reject (chars.map Char.toString) : Reader Char).Instructs :=
    instructs_reject (mt List.map_eq_nil_iff.mp some)
  intro t
  unfold oneOf
  split
  · exact refuses t
  split
  · exact .accepted (suffix_drop 1 t) recorded_nil
  · exact refuses t

private theorem instructs_atEnd : atEnd.Instructs := by
  intro t
  unfold atEnd
  split
  · exact .accepted (List.suffix_refl _) recorded_nil
  · exact instructs_reject (List.cons_ne_nil _ _) t

private theorem Instructs.andThen {next : α → Reader β} (first : p.Instructs)
    (second : ∀ a, (next a).Instructs) : (p.andThen next).Instructs := by
  intro t
  have here := first t
  unfold Reader.andThen
  generalize p t = x at here ⊢
  cases here with
  | accepted place recorded => exact (second _ _).behind recorded place
  | rejected asks recorded => exact .rejected asks recorded
  | aborted place cause recorded => exact .aborted place cause recorded

private theorem Instructs.orElse (first : p.Instructs) (second : q.Instructs) : (p.orElse q).Instructs := by
  intro t
  have here := first t
  have other := second t
  unfold Reader.orElse
  generalize p t = x at here ⊢
  cases here with
  | accepted place recorded => exact .accepted place recorded
  | rejected asks recorded =>
    have whole := other.behind recorded (List.suffix_refl _)
    generalize q t = y at other whole ⊢
    cases other with
    | accepted => exact whole
    | rejected asksToo => exact .rejected (asks.merge asksToo) whole.recorded
    | aborted => exact whole
  | aborted place cause recorded => exact .aborted place cause recorded

/-- An alternative that is switched off asks for nothing, but the one before it asks for something. -/
theorem Instructs.switched {enabled : Bool} (first : p.Instructs) (second : q.Instructs) :
    (p.orElse (guarded enabled q)).Instructs := by
  cases enabled with
  | true => exact first.orElse second
  | false =>
    intro t
    have here := first t
    unfold Reader.orElse
    generalize p t = x at here ⊢
    cases here with
    | accepted place recorded => exact .accepted place recorded
    | rejected asks recorded =>
      exact .rejected asks.merge_nothing (List.forall_mem_append.mpr ⟨recorded, recorded_nil⟩)
    | aborted place cause recorded => exact .aborted place cause recorded

private theorem Instructs.opt (instructs : p.Instructs) : p.opt.Instructs := by
  intro t
  have here := instructs t
  unfold Reader.opt
  generalize p t = x at here ⊢
  cases here with
  | accepted place recorded => exact .accepted place recorded
  | rejected asks recorded => exact .accepted (List.suffix_refl _) recorded
  | aborted place cause recorded => exact .aborted place cause recorded

private theorem Instructs.peek (instructs : p.Instructs) : p.peek.Instructs := by
  intro t
  have here := instructs t
  unfold Reader.peek
  generalize p t = x at here ⊢
  cases here with
  | accepted place recorded => exact .accepted (List.suffix_refl _) recorded
  | rejected asks recorded => exact .rejected asks recorded
  | aborted place cause recorded => exact .aborted place cause recorded

private theorem Instructs.notAhead {tokens : List String} (some : tokens ≠ []) (instructs : p.Instructs) :
    (p.notAhead tokens).Instructs := by
  intro t
  have here := instructs t
  unfold Reader.notAhead
  generalize p t = x at here ⊢
  cases here with
  | accepted place recorded => exact .rejected (Failure.asks_here some) recorded
  | rejected asks recorded => exact .accepted (List.suffix_refl _) recorded
  | aborted place cause recorded => exact .aborted place cause recorded

private theorem Instructs.consumed (instructs : p.Instructs) : p.consumed.Instructs := by
  intro t
  have here := instructs t
  unfold Reader.consumed
  generalize p t = x at here ⊢
  cases here with
  | accepted place recorded => exact .accepted place recorded
  | rejected asks recorded => exact .rejected asks recorded
  | aborted place cause recorded => exact .aborted place cause recorded

private theorem Instructs.satisfying {test : α → Bool} {tokens : List String} (some : tokens ≠ [])
    (instructs : p.Instructs) : (p.satisfying test tokens).Instructs := by
  intro t
  have here := instructs t
  have refused := Failure.asks_here (t := t) some
  unfold Reader.satisfying
  generalize p t = x at here ⊢
  cases here with
  | accepted place recorded =>
    dsimp only
    split
    · exact .accepted place recorded
    · exact .rejected refused recorded
  | rejected asks recorded =>
    dsimp only
    split
    · exact .rejected refused recorded
    · exact .rejected asks recorded
  | aborted place cause recorded => exact .aborted place cause recorded

private theorem Instructs.cut (instructs : p.Instructs) : (Reader.cut true p).Instructs := by
  intro t
  have here := instructs t
  unfold Reader.cut
  generalize p t = x at here ⊢
  cases here with
  | accepted place recorded => exact .accepted place recorded
  | rejected asks recorded => exact .fail asks.place asks.cause_ne recorded
  | aborted place cause recorded => exact .aborted place cause recorded

/-- A broken rule is no rejection. -/
theorem Instructs.resolve {f : α → Except Violation β} (instructs : p.Instructs) :
    (Reader.resolve true p f).Instructs := by
  intro t
  have here := instructs t
  unfold Reader.resolve
  generalize p t = x at here ⊢
  cases here with
  | accepted place recorded =>
    dsimp only
    split
    · exact .accepted place recorded
    · exact .fail (List.suffix_refl _) Cause.noConfusion recorded
  | rejected asks recorded => exact .rejected asks recorded
  | aborted place cause recorded => exact .aborted place cause recorded

private theorem Instructs.recorded (instructs : p.Instructs) : p.recorded.Instructs := by
  intro t
  have here := instructs t
  unfold Reader.recorded
  generalize p t = x at here ⊢
  cases here with
  | accepted place recorded => exact .accepted place recorded
  | rejected asks recorded =>
    exact .rejected asks (List.forall_mem_append.mpr ⟨recorded, List.forall_mem_singleton.mpr asks⟩)
  | aborted place cause recorded => exact .aborted place cause recorded

private theorem Consumes.size_lt (consumes : p.Consumes) {t rest : Unread} {a : α}
    (accepted : (p t).outcome = .accepted a rest) : rest.size < t.size := by
  rw [← t.ofList_chars] at accepted
  rw [t.size_eq, rest.size_eq]
  exact consumes (.of_accepted accepted)

private theorem Instructs.many (consumes : p.Consumes) (instructs : p.Instructs) :
    Instructs (Reader.many p) := by
  intro t
  induction size : t.size using Nat.strongRecOn generalizing t with
  | ind n ih =>
    have here := instructs t
    have shorter {a : α} {rest : Unread} : (p t).outcome = .accepted a rest → rest.size < t.size :=
      consumes.size_lt
    rw [Reader.many]
    generalize p t = x at here shorter ⊢
    cases here with
    | @accepted a rest trail place recorded =>
      have shorter := shorter rfl
      have later := (ih rest.size (size ▸ shorter) rest rfl).behind recorded place
      simp only [shorter, if_true]
      generalize Reader.many p rest = y at later ⊢
      obtain ⟨outcome, _⟩ := y
      cases outcome <;> exact later.withValue fun values => a :: values
    | rejected asks recorded => exact .accepted (List.suffix_refl _) recorded
    | aborted place cause recorded => exact .aborted place cause recorded

private theorem instructs_items {s : Settings} (instructs : ∀ after, (item s after).Instructs)
    (started after : Bool) : Instructs (items s started after) := by
  intro t
  induction size : t.size using Nat.strongRecOn generalizing t started after with
  | ind n ih =>
    have here := instructs after t
    have shorter {value : CodepointSet × Bool} {rest : Unread} :
        (item s after t).outcome = .accepted value rest → rest.size < t.size :=
      Consumes.size_lt (Repeated.item after).consumes
    rw [items]
    generalize item s after t = x at here shorter ⊢
    cases here with
    | @accepted value rest trail place recorded =>
      have shorter := shorter rfl
      have later := (ih rest.size (size ▸ shorter) true value.2 rest rfl).behind recorded place
      simp only [shorter, if_true]
      split
      · exact .accepted place recorded
      · generalize items s true value.2 rest = y at later ⊢
        obtain ⟨outcome, _⟩ := y
        cases outcome <;> exact later.withValue fun sets => value.1 :: sets
    | rejected asks recorded =>
      have closing := Failure.asks_here (t := t) (List.cons_ne_nil "]" ["-["])
      dsimp only
      split
      · exact .rejected (asks.merge closing) recorded
      · exact .rejected asks recorded
    | aborted place cause recorded => exact .aborted place cause recorded

private theorem AsksForMore.ne_nil {tokens : List String} (asks : AsksForMore tokens) : tokens ≠ [] := by
  obtain ⟨_, member, _⟩ := asks
  exact List.ne_nil_of_mem member

private theorem inheritedByGroups_instructs : InheritedByGroups true Instructs where
  accept := fun _ _ => .accepted (List.suffix_refl _) recorded_nil
  token := fun _ => instructs_token _
  anyChar := instructs_anyChar
  oneOf := fun other => by
    obtain ⟨_, member, _⟩ := other
    exact instructs_oneOf (List.ne_nil_of_mem member)
  andThen := .andThen
  orElse := .orElse
  opt := .opt
  many := .many
  peek := .peek
  notAhead := fun asks => .notAhead asks.ne_nil
  consumed := .consumed
  satisfying := fun asks => .satisfying asks.ne_nil
  cut := .cut
  resolve := .resolve
  items := fun _ => instructs_items
  closing := instructs_token ")"
  recorded := .recorded
  switched := .switched
  atEnd := instructs_atEnd

end Reader

private theorem byteLength_append (u v : List Char) :
    Report.byteLength (u ++ v) = Report.byteLength u + Report.byteLength v := by
  induction u with
  | nil => exact (Nat.zero_add _).symm
  | cons c u ih => rw [List.cons_append, Report.byteLength, Report.byteLength, ih, Nat.add_assoc]

private theorem byteLength_take_le (n : Nat) (w : List Char) :
    Report.byteLength (w.take n) ≤ Report.byteLength w := by
  have whole := byteLength_append (w.take n) (w.drop n)
  rw [List.take_append_drop] at whole
  omega

private theorem nodup_eraseDups (tokens : List String) : tokens.eraseDups.Nodup := by
  induction size : tokens.length using Nat.strongRecOn generalizing tokens with
  | ind n ih =>
    cases tokens with
    | nil => exact List.nodup_nil
    | cons token tokens =>
      rw [List.eraseDups_cons, List.nodup_cons]
      refine ⟨fun member => ?_, ih _ ?_ _ rfl⟩
      · rw [List.mem_eraseDups, List.mem_filter] at member
        simp at member
      · rw [← size]
        exact Nat.lt_succ_of_le (List.length_filter_le _ _)

open Reader

/-- A syntax error is at a place of its pattern, tells what is found there, if there is anything, and what
could be there. The bytes that a report marks, counted anew from the characters before the error, start
where reading failed and stop behind what is found. -/
structure SyntaxErrorFormed (s : Settings) (e : PatternError) (expected : List String) (found : Option Char) :
    Prop where
  inside : e.offset ≤ e.pattern.length
  here : found = e.pattern.toList[e.offset]?
  atEnd : found = none ↔ e.offset = e.pattern.length
  asks : expected ≠ []
  once : expected.Nodup
  place : ∃ f, (pattern s (.ofList e.pattern.toList) = .rejected f ∨
      pattern s (.ofList e.pattern.toList) = .aborted f) ∧
    e.pattern.toList = e.pattern.toList.take e.offset ++ f.rest.chars ∧
    e.span.start + Report.byteLength f.rest.chars = Report.byteLength e.pattern.toList
  starts : e.span.start = Report.byteLength (e.pattern.toList.take e.offset)
  stops : e.span.stop = Report.byteLength (e.pattern.toList.take (e.offset + 1))
  marked : e.span.start ≤ e.span.stop ∧ e.span.stop ≤ Report.byteLength e.pattern.toList

variable {s : Settings}

private theorem instructs_production (commits : s.commits = true) {α : Type} {p : Reader α}
    (production : Production s p) : p.Instructs := by
  have inherited : InheritedByGroups s.commits Instructs := commits ▸ inheritedByGroups_instructs
  exact production.has inherited

private theorem exists_tokens_of_guarded (commits : s.commits = true) {m : Nat} {p : Reader Atom}
    (alternative : XPathAtom s (groupReader s m) p) {enabled : Bool} {t : Unread} {f : Failure}
    (rejected : (guarded enabled p t).outcome = .rejected f) :
    ∃ tokens, f.cause = .expected tokens ∧ (tokens = [] ↔ enabled = false) := by
  cases enabled with
  | false =>
    cases rejected
    exact ⟨[], rfl, iff_of_true rfl rfl⟩
  | true =>
    have inherited : InheritedByGroups s.commits Instructs := commits ▸ inheritedByGroups_instructs
    have instructs := inherited.xpathAtom (fun _ reader => inherited.groupReader reader) alternative
    obtain ⟨tokens, same, some⟩ := ((instructs t).asks rejected).tokens
    exact ⟨tokens, same, iff_of_false some Bool.noConfusion⟩

private theorem place_of_pattern (commits : s.commits = true) {w : List Char} {f : Failure}
    (fails : pattern s (.ofList w) = .rejected f ∨ pattern s (.ofList w) = .aborted f) :
    f.rest.chars <:+ w ∧ f.cause ≠ .expected [] :=
  (instructs_production commits (.whole s.nestLimit) (.ofList w)).of_reports (reports_of_pattern fails)

private theorem ofFailure_eq {text : String} {f : Failure} {tokens : List String} {u : List Char}
    (split : u ++ f.rest.chars = text.toList) (cause : f.cause = .expected tokens) :
    PatternError.ofFailure text f =
      ⟨text, u.length, .unexpected tokens.eraseDups f.rest.chars.head?⟩ := by
  have size : text.length = u.length + f.rest.size := by
    rw [← String.length_toList, ← split, List.length_append, f.rest.size_eq]
  rw [PatternError.ofFailure, size, Nat.add_sub_cancel, cause]

/-- The marked bytes are those of the next character. -/
theorem span_eq {text : String} {expected : List String} {u v : List Char} (split : u ++ v = text.toList) :
    (PatternError.mk text u.length (.unexpected expected v.head?)).span =
      ⟨Report.byteLength u, Report.byteLength (text.toList.take (u.length + 1))⟩ := by
  have front : text.toList.take u.length = u := by rw [← split, List.take_left]
  rw [PatternError.span]
  cases v with
  | nil =>
    have whole : text.toList.take (u.length + 1) = u := by
      rw [← split, List.append_nil, List.take_of_length_le (Nat.le_succ _)]
    simp only [List.head?_nil, front, whole]
  | cons c v =>
    have next : text.toList.take (u.length + 1) = u ++ [c] := by
      rw [← split, ← List.singleton_append, ← List.append_assoc]
      exact List.take_left' (by rw [List.length_append, List.length_singleton])
    simp only [List.head?_cons, front, next, byteLength_append, Report.byteLength, Nat.add_zero]

private theorem syntaxErrorFormed {text : String} {f : Failure} {tokens : List String} {u : List Char}
    (fails : pattern s (.ofList text.toList) = .rejected f ∨ pattern s (.ofList text.toList) = .aborted f)
    (split : u ++ f.rest.chars = text.toList) (asks : tokens ≠ []) :
    SyntaxErrorFormed s ⟨text, u.length, .unexpected tokens.eraseDups f.rest.chars.head?⟩
      tokens.eraseDups f.rest.chars.head? := by
  have size : text.length = u.length + f.rest.chars.length := by
    rw [← String.length_toList, ← split, List.length_append]
  have front : text.toList.take u.length = u := by rw [← split, List.take_left]
  have span : (PatternError.mk text u.length (.unexpected tokens.eraseDups f.rest.chars.head?)).span = _ :=
    span_eq split
  have less : Report.byteLength u ≤ Report.byteLength (text.toList.take (u.length + 1)) := by
    rw [List.take_add_one, byteLength_append, front]
    exact Nat.le_add_right _ _
  exact
    { inside := size ▸ Nat.le_add_right _ _
      here := by
        rw [← split, List.getElem?_append_right (Nat.le_refl _), Nat.sub_self, List.head?_eq_getElem?]
      atEnd := by
        rw [List.head?_eq_none_iff, ← List.length_eq_zero_iff]
        change f.rest.chars.length = 0 ↔ u.length = text.length
        omega
      asks := by
        obtain ⟨token, member⟩ := List.exists_mem_of_ne_nil tokens asks
        exact List.ne_nil_of_mem (List.mem_eraseDups.mpr member)
      once := nodup_eraseDups tokens
      place := ⟨f, fails, by rw [front, split], by rw [span, ← byteLength_append, split]⟩
      starts := by rw [span, front]
      stops := by rw [span]
      marked := by
        rw [span]
        exact ⟨less, byteLength_take_le _ _⟩ }

/-- Every syntax error is well formed. This is so since every reader of the grammar asks for tokens where
it rejects a text, and never rejects one because a rule is broken. An alternative of an atom that is
switched off asks for none, but does not speak of a rule either. And what is read repeatedly takes up
text, so that reading never stops for a value that does not. -/
theorem syntax_errors_wellFormed (d : Dialect) (n : Nat) :
    (∀ text e expected found, parse (limited d n) text = .error e → e.cause = .unexpected expected found →
      e.pattern = text ∧ SyntaxErrorFormed (limited d n) e expected found) ∧
    (∀ (α : Type) (p : Reader α), Production (limited d n) p → ∀ t f, (p t).outcome = .rejected f →
      ∃ tokens, f.cause = .expected tokens ∧ tokens ≠ []) ∧
    (∀ m p, XPathAtom (limited d n) (groupReader (limited d n) m) p →
      ∀ enabled t f, (guarded enabled p t).outcome = .rejected f →
        ∃ tokens, f.cause = .expected tokens ∧ (tokens = [] ↔ enabled = false)) ∧
    (∀ (α : Type) (p : Reader α), Repeated (limited d n) p → ∀ t a rest,
      (p t).outcome = .accepted a rest → rest.size < t.size) := by
  refine ⟨fun text e expected found failed cause => ?_, fun α p production t f rejected => ?_,
    fun m p alternative enabled t f => exists_tokens_of_guarded rfl alternative,
    fun α p repeated t a rest accepted => Consumes.size_lt repeated.consumes accepted⟩
  · obtain ⟨f, fails, same⟩ := exists_failure_of_parse failed
    obtain ⟨⟨u, split⟩, asks⟩ := place_of_pattern rfl fails
    cases reason : f.cause with
    | expected tokens =>
      rw [ofFailure_eq split reason] at same
      subst same
      injection cause with same there
      subst same there
      exact ⟨rfl, syntaxErrorFormed fails split fun none => asks (none ▸ reason)⟩
    | violation v =>
      subst same
      simp [PatternError.ofFailure, reason] at cause
  · exact ((instructs_production rfl production t).asks rejected).tokens

theorem syntax_errors_wellFormed_wideCharacters :
    parse (limited .xpath 100) "(é\x7b中" = .error ⟨"(é\x7b中", 3, .unexpected ["digit"] (some '中')⟩ ∧
      SyntaxErrorFormed (limited .xpath 100) ⟨"(é\x7b中", 3, .unexpected ["digit"] (some '中')⟩ ["digit"]
        (some '中') := by
  have failed : parse (limited .xpath 100) "(é\x7b中" =
      .error ⟨"(é\x7b中", 3, .unexpected ["digit"] (some '中')⟩ := parse_eq_error (by decide +kernel)
  exact ⟨failed, ((syntax_errors_wellFormed .xpath 100).1 _ _ _ _ failed rfl).2⟩

end SchemaRegex.Pattern

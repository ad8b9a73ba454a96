import SchemaRegex.Proofs.Pattern.Failing
import SchemaRegex.Proofs.Pattern.NestingLimit

/-!
# Recorded failures

Each piece that is rejected is recorded, also where reading goes on behind it. A refused pattern is reported
at least where the deepest recorded failure is, but for one case: a group that is found not to be closed at a
backslash. That is reported at the backslash, and the failure behind it is dropped
(`report_reaches_recorded_failures`).
-/

namespace SchemaRegex.Pattern

open Reader

private def Covers (u : Unread) (trail : List Failure) : Prop := ∀ g ∈ trail, u.size ≤ g.rest.size

private def Overshoots (u : Unread) (trail : List Failure) : Prop :=
  (∀ g ∈ trail, u.size ≤ g.rest.size + 1) ∧ ∃ g ∈ trail, g.rest.size < u.size

private def Stops (u : Unread) (trail : List Failure) : Prop :=
  if u.chars.head? = some '\\' then Overshoots u trail else Covers u trail

/-- The failure is as deep as those that are recorded, unless a group is not closed. -/
private def Explains (f : Failure) (trail : List Failure) : Prop :=
  (f.AsksToClose → Stops f.rest trail) ∧ (¬ f.AsksToClose → Covers f.rest trail)

private def AsksNever (trail : List Failure) : Prop := ∀ g ∈ trail, ¬ g.AsksToClose

variable {t u v : Unread} {f : Failure} {xs ys : List Failure}

private theorem asksNever_nil : AsksNever [] := fun _ member => absurd member List.not_mem_nil

private theorem AsksNever.append (first : AsksNever xs) (second : AsksNever ys) : AsksNever (xs ++ ys) :=
  List.forall_mem_append.mpr ⟨first, second⟩

private theorem covers_nil : Covers u [] := fun _ member => absurd member List.not_mem_nil

private theorem Covers.mono (covers : Covers u xs) (less : v.size ≤ u.size) : Covers v xs :=
  fun g member => Nat.le_trans less (covers g member)

private theorem Covers.append (first : Covers u xs) (second : Covers u ys) : Covers u (xs ++ ys) :=
  List.forall_mem_append.mpr ⟨first, second⟩

private theorem Covers.overshoots (covers : Covers u xs) (beyond : Overshoots u ys) :
    Overshoots u (xs ++ ys) := by
  obtain ⟨near, g, member, deeper⟩ := beyond
  have nearToo : ∀ g ∈ xs, u.size ≤ g.rest.size + 1 := fun g member => Nat.le_succ_of_le (covers g member)
  exact ⟨List.forall_mem_append.mpr ⟨nearToo, near⟩, g, List.mem_append_right xs member, deeper⟩

private theorem Covers.stops (covers : Covers u xs) (stops : Stops u ys) : Stops u (xs ++ ys) := by
  unfold Stops at *
  split
  · rw [if_pos ‹_›] at stops
    exact covers.overshoots stops
  · rw [if_neg ‹_›] at stops
    exact covers.append stops

private theorem Covers.explains (covers : Covers f.rest xs) (explains : Explains f ys) :
    Explains f (xs ++ ys) :=
  ⟨fun closes => covers.stops (explains.1 closes), fun other => covers.append (explains.2 other)⟩

private theorem explains_of_covers (asks : ¬ f.AsksToClose) (covers : Covers f.rest xs) : Explains f xs :=
  ⟨fun closes => absurd closes asks, fun _ => covers⟩

private theorem Stops.covers (stops : Stops u xs) (other : u.chars.head? ≠ some '\\') : Covers u xs := by
  rwa [Stops, if_neg other] at stops

/-- A piece that is rejected stops a branch. -/
theorem stops_of_atEscape (place : AtEscape t f) : Stops t [f] := by
  unfold AtEscape AtStart at place
  unfold Stops Overshoots Covers
  split
  · rw [if_pos ‹_›] at place
    exact ⟨List.forall_mem_singleton.mpr (by omega), f, List.mem_singleton_self f, by omega⟩
  · rw [if_neg ‹_›] at place
    exact List.forall_mem_singleton.mpr (by omega)

/-- What is recorded in an attempt from the text `t` on: one relation for where it gets to, and one for why
it is rejected. -/
inductive Attempt.Accounts {α : Type} (t : Unread) (reached : Unread → List Failure → Prop)
    (refused : Failure → List Failure → Prop) : Attempt α → Prop
  | accepted {a : α} {rest : Unread} {trail : List Failure} (less : rest.size ≤ t.size)
    (asks : AsksNever trail) (place : reached rest trail) :
    Accounts t reached refused ⟨.accepted a rest, trail⟩
  | rejected {f : Failure} {trail : List Failure} (less : f.rest.size ≤ t.size) (asks : AsksNever trail)
    (place : refused f trail) : Accounts t reached refused ⟨.rejected f, trail⟩
  | aborted {f : Failure} {trail : List Failure} (less : f.rest.size ≤ t.size) (asks : AsksNever trail)
    (place : Explains f trail) : Accounts t reached refused ⟨.aborted f, trail⟩

private theorem Attempt.Accounts.mono {α : Type} {reached : Unread → List Failure → Prop}
    {refused : Failure → List Failure → Prop} {x : Attempt α} (accounts : x.Accounts u reached refused)
    (less : u.size ≤ t.size) : x.Accounts t reached refused := by
  cases accounts with
  | accepted place asks reached => exact .accepted (Nat.le_trans place less) asks reached
  | rejected place asks refused => exact .rejected (Nat.le_trans place less) asks refused
  | aborted place asks explains => exact .aborted (Nat.le_trans place less) asks explains

private def Nothing (f : Failure) (trail : List Failure) : Prop := trail = [] ∧ ¬ f.AsksToClose

namespace Reader

variable {α β : Type} {p q : Reader α} {reached reached' : Unread → List Failure → Prop}
  {refused refused' : Failure → List Failure → Prop}

private def Accounts (reached : Unread → List Failure → Prop) (refused : Failure → List Failure → Prop)
    (p : Reader α) : Prop := ∀ t, (p t).Accounts t reached refused

private def Follows (before reached : Unread → List Failure → Prop) (refused : Failure → List Failure → Prop)
    (q : Reader β) : Prop :=
  ∀ t xs, before t xs → AsksNever xs →
    (Attempt.mk (q t).outcome (xs ++ (q t).trail)).Accounts t reached refused

private theorem follows_accept {b : β} : Follows reached reached refused (accept b) :=
  fun _ xs place asks => (List.append_nil xs).symm ▸ .accepted (Nat.le_refl _) asks place

private theorem Accounts.andThen {next : α → Reader β} (first : p.Accounts reached refused)
    (second : ∀ a, (next a).Follows reached reached' refused')
    (imp : ∀ f xs, refused f xs → refused' f xs) : (p.andThen next).Accounts reached' refused' := by
  intro t
  have accounts := first t
  unfold Reader.andThen
  generalize p t = x at accounts ⊢
  cases accounts with
  | accepted less asks place => exact (second _ _ _ place asks).mono less
  | rejected less asks place => exact .rejected less asks (imp _ _ place)
  | aborted less asks place => exact .aborted less asks place

private theorem Accounts.map (accounts : p.Accounts reached refused) (f : α → β) :
    (p.map f).Accounts reached refused :=
  accounts.andThen (fun _ => follows_accept) fun _ _ => id

private theorem Follows.map {q : Reader α} (follows : q.Follows reached reached' refused) (f : α → β) :
    (q.map f).Follows reached reached' refused := by
  intro t xs place asks
  have accounts := follows t xs place asks
  unfold Reader.map Reader.andThen
  generalize q t = x at accounts ⊢
  obtain ⟨outcome, trail⟩ := x
  cases outcome with
  | accepted a rest =>
    cases accounts with
    | accepted less asks place =>
      have same : trail ++ (accept (f a) rest).trail = trail := List.append_nil trail
      simp only [same]
      exact .accepted less asks place
  | rejected g =>
    cases accounts with
    | rejected less asks place => exact .rejected less asks place
  | aborted g =>
    cases accounts with
    | aborted less asks place => exact .aborted less asks place

private theorem Plain.accounts (plain : p.Plain) : p.Accounts Covers Nothing := by
  intro t
  have first := plain t
  generalize p t = x at first ⊢
  cases first with
  | accepted less => exact .accepted less asksNever_nil covers_nil
  | rejected less asks => exact .rejected less asksNever_nil ⟨rfl, asks⟩
  | aborted less asks => exact .aborted less asksNever_nil (explains_of_covers asks covers_nil)

private theorem Accounts.orElse (first : p.Accounts Covers Nothing) (second : q.Accounts Covers Nothing) :
    (p.orElse q).Accounts Covers Nothing := by
  intro t
  have accounts := first t
  have other := second t
  unfold Reader.orElse
  generalize p t = x at accounts ⊢
  cases accounts with
  | accepted less asks place => exact .accepted less asks place
  | rejected less asks place =>
    obtain ⟨none, asksMore⟩ := place
    subst none
    generalize q t = y at other ⊢
    cases other with
    | accepted less asks place => exact .accepted less asks place
    | rejected _ asksToo place =>
      obtain ⟨none, asksMoreToo⟩ := place
      subst none
      refine .rejected ?_ asksNever_nil ⟨rfl, Failure.not_asksToClose_merge asksMore asksMoreToo⟩
      rw [Failure.size_merge]
      exact Nat.le_trans (Nat.min_le_left _ _) less
    | aborted less asks place => exact .aborted less asks place
  | aborted less asks place => exact .aborted less asks place

private theorem Accounts.firstOf {ps : List (Reader α)} (parts : ∀ r ∈ p :: ps, r.Accounts Covers Nothing) :
    (Reader.firstOf p ps).Accounts Covers Nothing :=
  firstOf_of_forall Accounts.orElse parts

private theorem Accounts.guarded (enabled : Bool) (accounts : p.Accounts Covers Nothing) :
    (Reader.guarded enabled p).Accounts Covers Nothing := by
  cases enabled with
  | false => exact (plain_reject (.inl rfl)).accounts
  | true => exact accounts

private theorem Accounts.of_never (accounts : p.Accounts reached refused)
    (never : ∀ t f, (p t).outcome ≠ .rejected f) : p.Accounts reached fun _ _ => False := by
  intro t
  have first := accounts t
  have notRejected := never t
  generalize p t = x at first notRejected ⊢
  cases first with
  | accepted less asks place => exact .accepted less asks place
  | rejected => exact absurd rfl (notRejected _)
  | aborted less asks place => exact .aborted less asks place

private theorem Accounts.cut (accounts : p.Accounts reached Explains) :
    (Reader.cut true p).Accounts reached fun _ _ => False := by
  intro t
  have first := accounts t
  unfold Reader.cut
  generalize p t = x at first ⊢
  cases first with
  | accepted less asks place => exact .accepted less asks place
  | rejected less asks place => exact .aborted less asks place
  | aborted less asks place => exact .aborted less asks place

/-- What was recorded before, up to where the reader starts, changes nothing. -/
theorem Accounts.follows (accounts : p.Accounts reached fun _ _ => False)
    (absorbs : ∀ {u xs ys}, Covers u xs → reached u ys → reached u (xs ++ ys)) :
    Follows Covers reached refused p := by
  intro t xs covers asksBefore
  have first := accounts t
  generalize p t = x at first ⊢
  cases first with
  | accepted less asks place =>
    exact .accepted less (asksBefore.append asks) (absorbs (covers.mono less) place)
  | rejected less asks place => exact place.elim
  | aborted less asks place =>
    exact .aborted less (asksBefore.append asks) ((covers.mono less).explains place)

private theorem follows_closing : Follows Stops Covers Explains (token ")") := by
  intro t xs stops asks
  rw [token_char ")" ')' (by simp)]
  split
  · rename_i closing
    -- Where the parenthesis stands, there is no backslash behind which a piece was rejected.
    have other : t.chars.head? ≠ some '\\' := by simp [closing]
    have less : (t.drop 1).size ≤ t.size := Nat.sub_le _ _
    exact .accepted less (asks.append asksNever_nil) (((stops.covers other).mono less).append covers_nil)
  · have closes : (Failure.mk t (.expected [")"])).AsksToClose :=
      ⟨[")"], rfl, List.cons_ne_nil _ _, by decide⟩
    refine .rejected (Nat.le_refl _) (asks.append asksNever_nil) ?_
    rw [reject, List.append_nil]
    exact ⟨fun _ => stops, absurd closes⟩

private theorem accounts_enclosed {s : Settings} (commits : s.commits = true) {opening : String}
    (other : opening ≠ ")") {inner : Option (Reader α)}
    (inside : ∀ p ∈ inner, p.Accounts Stops Explains) :
    (enclosed s opening inner ")").Accounts Covers Nothing := by
  unfold enclosed
  rw [commits]
  cases inner with
  | none => exact (plain_token other).resolve.accounts
  | some p =>
    have closed := (inside p rfl).andThen (fun a => follows_closing.map fun _ => a) fun _ _ => id
    exact (plain_token other).accounts.andThen (fun _ => closed.cut.follows Covers.append) fun _ _ => id

private theorem accounts_recorded (accounts : p.Accounts Covers Nothing) (escape : p.RejectsWhere AtEscape)
    (t : Unread) : (p.recorded t).Accounts t Covers fun _ xs => Stops t xs := by
  have first := accounts t
  have behind := escape t
  unfold recorded
  generalize p t = x at first behind ⊢
  cases first with
  | accepted less asks place => exact .accepted less asks place
  | rejected less _ nothing =>
    obtain ⟨none, asks⟩ := nothing
    subst none
    exact .rejected less (List.forall_mem_singleton.mpr asks) (stops_of_atEscape (behind _ rfl))
  | aborted less asks place => exact .aborted less asks place

private theorem accounts_many (accounts : ∀ t, (p t).Accounts t Covers fun _ xs => Stops t xs) :
    Accounts Stops Explains (many p) := by
  intro t
  induction size : t.size using Nat.strongRecOn generalizing t with
  | ind n ih =>
    have first := accounts t
    rw [many]
    generalize p t = x at first ⊢
    cases first with
    | @accepted _ rest trail less asks covers =>
      dsimp only
      split
      · rename_i shorter
        have others := (ih rest.size (size ▸ shorter) rest rfl)
        generalize many p rest = y at others ⊢
        cases others with
        | accepted lessToo asksToo place =>
          exact .accepted (Nat.le_trans lessToo less) (asks.append asksToo)
            ((covers.mono lessToo).stops place)
        | rejected lessToo asksToo place =>
          exact .rejected (Nat.le_trans lessToo less) (asks.append asksToo)
            ((covers.mono lessToo).explains place)
        | aborted lessToo asksToo place =>
          exact .aborted (Nat.le_trans lessToo less) (asks.append asksToo)
            ((covers.mono lessToo).explains place)
      · rename_i longer
        exact .rejected (Nat.le_refl _) asks
          (explains_of_covers Failure.not_asksToClose_nil (covers.mono (Nat.not_lt.mp longer)))
    | rejected less asks stops =>
      -- No value starts here, and the one that was tried is recorded.
      exact .accepted (Nat.le_refl _) asks stops
    | aborted less asks place => exact .aborted less asks place

private theorem skipThen_char (text : String) (c : Char) (one : text.toList = [c]) (t : Unread) :
    (token text).skipThen p t =
      if t.chars.head? = some c then p (t.drop 1) else ⟨.rejected ⟨t, .expected [text]⟩, []⟩ := by
  unfold skipThen andThen
  rw [token_char text c one]
  split <;> rfl

private theorem follows_bars (branch : p.Accounts Stops fun _ _ => False) :
    Follows Stops Stops refused (many ((token "|").skipThen p)) := by
  intro t xs stops asksBefore
  induction size : t.size using Nat.strongRecOn generalizing t xs with
  | ind n ih =>
    rw [many, skipThen_char "|" '|' (by simp)]
    by_cases bar : t.chars.head? = some '|'
    · -- The branch before the bar did not stop at a backslash.
      have covers : Covers t xs := stops.covers (by simp [bar])
      have first := branch (t.drop 1)
      have some : (t.drop 1).size < t.size := size_drop_lt bar
      rw [if_pos bar]
      generalize p (t.drop 1) = x at first ⊢
      cases first with
      | @accepted _ rest trail less asks place =>
        have shorter : rest.size < t.size := Nat.lt_of_le_of_lt less some
        have before := (covers.mono (Nat.le_of_lt shorter)).stops place
        have others := ih rest.size (size ▸ shorter) rest _ before (asksBefore.append asks) rfl
        simp only [shorter, if_true, List.append_assoc] at others ⊢
        generalize many ((token "|").skipThen p) rest = y at others ⊢
        obtain ⟨outcome, later⟩ := y
        have others := others.mono (Nat.le_of_lt shorter)
        cases others with
        | accepted less asks place => exact .accepted less asks place
        | rejected less asks place => exact .rejected less asks place
        | aborted less asks place => exact .aborted less asks place
      | rejected less asks place => exact place.elim
      | @aborted f trail less asks place =>
        have less := Nat.le_trans less (Nat.le_of_lt some)
        exact .aborted less (asksBefore.append asks) ((covers.mono less).explains place)
    · rw [if_neg bar]
      exact .accepted (Nat.le_refl _) (asksBefore.append asksNever_nil)
        ((List.append_nil xs).symm ▸ stops)

end Reader

variable {s : Settings} {n : Nat}

private theorem accounts_atom (commits : s.commits = true) {inner : Option (Reader Regex)}
    (inside : ∀ p ∈ inner, p.Accounts Stops Explains) :
    (atom s (classExpr s n) inner).Accounts Covers Nothing := by
  have inherited := inherited_plain s.commits
  have anchor (text : String) (other : text ≠ ")") (c : Nat) :
      (guarded (s.dialect = .xpath) ((token text).as (Atom.literal c))).Accounts Covers Nothing :=
    (inherited.letter text other _).accounts.guarded _
  have group (opening : String) (other : opening ≠ ")") :
      ((enclosed s opening inner ")").map Atom.group).Accounts Covers Nothing :=
    (accounts_enclosed commits other inside).map _
  refine Accounts.firstOf ?_
  simp only [List.forall_mem_cons]
  exact ⟨inherited.normalChar.accounts.map _, (inherited.charAtom n).accounts, anchor "^" (by decide) _,
    anchor "$" (by decide) _, inherited.backreference.accounts.guarded _,
    (group "(?:" (by decide)).guarded _, group "(" (by decide), List.forall_mem_nil _⟩

private theorem accounts_piece {a : Reader Atom} (atom : a.Accounts Covers Nothing)
    (escape : a.RejectsWhere AtEscape) (t : Unread) :
    (piece s a t).Accounts t Covers fun _ xs => Stops t xs := by
  have quantifier : ((quantifier s).opt).Accounts Covers fun _ _ => False :=
    ((inherited_plain s.commits).quantifier.opt.accounts).of_never fun t f => not_rejected_opt
  refine accounts_recorded ?_ ?_ t
  · exact (atom.andThen (fun _ => (quantifier.follows Covers.append).map _) fun _ _ => id).map _
  · refine RejectsWhere.map (fun t f rejected => ?_) _
    obtain first | ⟨_, rest, _, second⟩ := rejected_of_andThen rejected
    · exact escape t f first
    · exact absurd (rejected_of_map second) not_rejected_opt

private theorem accounts_branches (commits : s.commits = true) {a : Reader Atom}
    (atom : a.Accounts Covers Nothing) (escape : a.RejectsWhere AtEscape) :
    (branches s a).Accounts Stops Explains := by
  have branch : (branch s a).Accounts Stops Explains :=
    (accounts_many (accounts_piece atom escape)).map _
  unfold branches
  rw [commits]
  exact (branch.andThen (fun _ => (follows_bars branch.cut).map _) fun _ _ => id).map _

private theorem accounts_regexp (commits : s.commits = true) (n : Nat) :
    Reader.Accounts Stops Explains (regexp s n) := by
  induction n with
  | zero =>
    rw [regexp_eq]
    refine accounts_branches commits (accounts_atom commits fun p reader => ?_)
      (atEscape_atom commits 0 _)
    cases reader
  | succ n ih =>
    rw [regexp_eq]
    refine accounts_branches commits (accounts_atom commits fun p reader => ?_)
      (atEscape_atom commits (n + 1) _)
    cases reader
    exact ih

namespace Failure

private theorem deepest?_cons_cons (f g : Failure) (fs : List Failure) :
    deepest? (f :: g :: fs) = deepest? ((if g.Deeper f then g else f) :: fs) := by
  simp only [deepest?, List.foldl_cons]
  split <;> rfl

private theorem exists_deepest (f : Failure) (fs : List Failure) :
    ∃ g, deepest? (f :: fs) = some g ∧ ∀ h ∈ f :: fs, g.rest.size ≤ h.rest.size := by
  induction fs generalizing f with
  | nil => exact ⟨f, rfl, List.forall_mem_singleton.mpr (Nat.le_refl _)⟩
  | cons g fs ih =>
    obtain ⟨best, same, least⟩ := ih (if g.Deeper f then g else f)
    simp only [List.forall_mem_cons] at least ⊢
    have both : best.rest.size ≤ f.rest.size ∧ best.rest.size ≤ g.rest.size := by
      have less := least.1
      split at less
      · rename_i deeper
        exact ⟨Nat.le_trans less (Nat.le_of_lt deeper), less⟩
      · rename_i notDeeper
        exact ⟨less, Nat.le_trans less (Nat.not_lt.mp notDeeper)⟩
    exact ⟨best, (deepest?_cons_cons f g fs).trans same, both.1, both.2, least.2⟩

def offset (text : String) (f : Failure) : Nat := text.length - f.rest.size

end Failure

def recordedFailures (s : Settings) (text : String) : List Failure :=
  (Reader.thenSkip (regexp s s.nestLimit) atEnd (.ofList text.toList)).trail

private theorem follows_atEnd :
    Follows Stops (fun _ _ => True) (fun f xs => f.AsksToClose → Stops f.rest xs) atEnd := by
  intro t xs _ asks
  unfold atEnd
  split
  · exact .accepted (Nat.le_refl _) (asks.append asksNever_nil) trivial
  · exact .rejected (Nat.le_refl _) (asks.append asksNever_nil)
      fun closes => absurd closes (Failure.not_asksToClose (by decide))

/-- A pattern fails where the deepest recorded failure is, or for a failure that explains all of them. -/
theorem explains_of_pattern (commits : s.commits = true) {text : String} {f : Failure}
    (fails : pattern s (.ofList text.toList) = .rejected f ∨ pattern s (.ofList text.toList) = .aborted f) :
    f.rest.size ≤ text.length ∧ Explains f (recordedFailures s text) := by
  have whole := (accounts_regexp commits s.nestLimit).andThen
    (fun r => follows_atEnd.map fun _ => r) fun _ _ explains => explains.1
  have accounts := whole (.ofList text.toList)
  have length : (Unread.ofList text.toList).size = text.length := String.length_toList
  change Attempt.Accounts _ _ _ (Reader.thenSkip (regexp s s.nestLimit) atEnd _) at accounts
  unfold pattern at fails
  unfold recordedFailures
  generalize Reader.thenSkip (regexp s s.nestLimit) atEnd (.ofList text.toList) = x at accounts fails ⊢
  rw [← length]
  cases accounts with
  | accepted => obtain fails | fails := fails <;> cases fails
  | @rejected g trail less asks stops =>
    cases trail with
    | nil =>
      obtain fails | fails := fails <;> cases fails
      exact ⟨less, stops, fun _ => covers_nil⟩
    | cons first others =>
      obtain ⟨best, deepest, least⟩ := Failure.exists_deepest first others
      simp only [deepest] at fails
      obtain fails | fails := fails <;> cases fails
      -- A deeper failure that was recorded takes the place of this one.
      split
      · rename_i deeper
        exact ⟨Nat.le_trans (Nat.le_of_lt deeper) less,
          explains_of_covers (asks best (Failure.mem_of_deepest? deepest)) least⟩
      · rename_i notDeeper
        have covers : Covers g.rest (first :: others) :=
          fun h member => Nat.le_trans (Nat.not_lt.mp notDeeper) (least h member)
        exact ⟨less, stops, fun _ => covers⟩
  | aborted less _ explains =>
    obtain fails | fails := fails <;> cases fails
    exact ⟨less, explains⟩

private theorem eraseDups_eq_singleton_iff {tokens : List String} :
    tokens.eraseDups = [")"] ↔ tokens ≠ [] ∧ ¬ AsksForMore tokens := by
  constructor
  · intro same
    refine ⟨fun none => by simp [none] at same, fun asks => ?_⟩
    obtain ⟨text, member, other⟩ := asks
    rw [← List.mem_eraseDups, same] at member
    exact other (List.mem_singleton.mp member)
  · intro given
    obtain ⟨some, nothing⟩ := given
    have all : ∀ text ∈ tokens, text = ")" := by
      intro text member
      by_contra other
      exact nothing ⟨text, member, other⟩
    cases tokens with
    | nil => contradiction
    | cons text tokens =>
      simp only [List.forall_mem_cons] at all
      obtain ⟨same, all⟩ := all
      have none : tokens.filter (fun other => !other == ")") = [] := by
        rw [List.filter_eq_nil_iff]
        intro other member
        simp [all other member]
      rw [same, List.eraseDups_cons, none]
      rfl

/-- The error tells that a group is not closed at a backslash. -/
theorem cause_ofFailure_iff {text : String} {f : Failure} :
    (PatternError.ofFailure text f).cause = .unexpected [")"] (some '\\') ↔
      f.AsksToClose ∧ f.rest.chars.head? = some '\\' := by
  obtain ⟨rest, cause⟩ := f
  cases cause with
  | violation v => simp [PatternError.ofFailure, Failure.AsksToClose]
  | expected tokens =>
    simp [PatternError.ofFailure, Failure.AsksToClose, eraseDups_eq_singleton_iff]

/-- The error is reported no further than one character before a recorded failure, and not before any of them
unless a group is found not to be closed at a backslash. -/
theorem report_reaches_recorded_failures {d : Dialect} {n : Nat} {text : String} {e : PatternError}
    (failed : parse (limited d n) text = .error e) :
    (∀ f ∈ recordedFailures (limited d n) text, f.offset text ≤ e.offset + 1) ∧
    ((∀ f ∈ recordedFailures (limited d n) text, f.offset text ≤ e.offset) ↔
      e.cause ≠ .unexpected [")"] (some '\\')) := by
  obtain ⟨h, fails, same⟩ := exists_failure_of_parse failed
  subst same
  obtain ⟨inside, unclosed, covers⟩ := explains_of_pattern rfl fails
  have place : (PatternError.ofFailure text h).offset = text.length - h.rest.size := rfl
  rw [place, ne_eq, cause_ofFailure_iff]
  unfold Failure.offset
  by_cases atBackslash : h.AsksToClose ∧ h.rest.chars.head? = some '\\'
  · have stops := unclosed atBackslash.1
    rw [Stops, if_pos atBackslash.2] at stops
    obtain ⟨near, f, member, deeper⟩ := stops
    refine ⟨fun f member => ?_, fun reached => ?_, fun other => absurd atBackslash other⟩
    · have := near f member
      omega
    · have := reached f member
      omega
  · have covers : Covers h.rest (recordedFailures (limited d n) text) := by
      by_cases closes : h.AsksToClose
      · exact (unclosed closes).covers fun backslash => atBackslash ⟨closes, backslash⟩
      · exact covers closes
    have reached : ∀ f ∈ recordedFailures (limited d n) text,
        text.length - f.rest.size ≤ text.length - h.rest.size :=
      fun f member => Nat.sub_le_sub_left (covers f member) _
    exact ⟨fun f member => Nat.le_succ_of_le (reached f member), fun _ => atBackslash, fun _ => reached⟩

/-- The escape is what is wrong, but the error is reported before it. -/
theorem parse_escapeInGroup : parse (limited .xsd 100) "(\\q)" =
    .error ⟨"(\\q)", 1, .unexpected [")"] (some '\\')⟩ := parse_eq_error (by decide +kernel)

theorem report_misses_escapeInGroup :
    ∃ e, parse (limited .xsd 100) "(\\q)" = .error e ∧ e.offset = 1 ∧
      ∃ f ∈ recordedFailures (limited .xsd 100) "(\\q)", f.offset "(\\q)" = 2 := by
  obtain ⟨near, exactly⟩ := report_reaches_recorded_failures parse_escapeInGroup
  refine ⟨_, parse_escapeInGroup, rfl, ?_⟩
  by_contra none
  refine exactly.mp (fun f member => ?_) rfl
  have less : f.offset "(\\q)" ≤ 2 := near f member
  have other : f.offset "(\\q)" ≠ 2 := fun same => none ⟨f, member, same⟩
  exact Nat.le_of_lt_succ (Nat.lt_of_le_of_ne less other)

end SchemaRegex.Pattern

import SchemaRegex.Proofs.Pattern.Breaking
import SchemaRegex.Proofs.Pattern.Inherited

/-!
# How readers fail

Readers that read no group record nothing, and ask for something other than a closing parenthesis when
they fail (`Plain`). The reader for atoms rejects a text where it starts or, if it starts with a backslash,
right behind that (`AtEscape`).
-/

namespace SchemaRegex.Pattern

def Failure.AsksToClose (f : Failure) : Prop :=
  ∃ tokens, f.cause = .expected tokens ∧ tokens ≠ [] ∧ ¬ Reader.AsksForMore tokens

namespace Failure

theorem not_asksToClose_violation {rest : Unread} {v : Violation} :
    ¬ (Failure.mk rest (.violation v)).AsksToClose := by
  simp [AsksToClose]

theorem not_asksToClose_nil {rest : Unread} : ¬ (Failure.mk rest (.expected [])).AsksToClose := by
  simp [AsksToClose]

theorem not_asksToClose {rest : Unread} {tokens : List String} (asks : Reader.AsksForMore tokens) :
    ¬ (Failure.mk rest (.expected tokens)).AsksToClose := by
  intro closes
  obtain ⟨_, same, _, nothing⟩ := closes
  cases same
  exact nothing asks

theorem size_merge (f g : Failure) : (f.merge g).rest.size = min f.rest.size g.rest.size := by
  unfold merge
  split
  · rename_i deeper
    exact (Nat.min_eq_right (Nat.le_of_lt deeper)).symm
  rename_i notDeeper
  have first : f.rest.size = min f.rest.size g.rest.size :=
    (Nat.min_eq_left (Nat.not_lt.mp notDeeper)).symm
  split
  · exact first
  split
  · exact first
  · exact first

theorem not_asksToClose_merge {f g : Failure} (first : ¬ f.AsksToClose) (second : ¬ g.AsksToClose) :
    ¬ (f.merge g).AsksToClose := by
  unfold merge
  split
  · exact second
  split
  · exact first
  split
  · rename_i xs ys left right
    intro closes
    obtain ⟨_, same, some, nothing⟩ := closes
    cases same
    by_cases none : xs = []
    · subst none
      exact second ⟨ys, right, some, nothing⟩
    · exact first ⟨xs, left, none, fun asks => nothing asks.append⟩
  · exact first

end Failure

/-- Nothing is recorded, reading does not go back, and a failure does not ask for a closing parenthesis
alone. -/
inductive Attempt.Plain {α : Type} (t : Unread) : Attempt α → Prop
  | accepted {a : α} {rest : Unread} (less : rest.size ≤ t.size) : Plain t ⟨.accepted a rest, []⟩
  | rejected {f : Failure} (less : f.rest.size ≤ t.size) (asks : ¬ f.AsksToClose) :
    Plain t ⟨.rejected f, []⟩
  | aborted {f : Failure} (less : f.rest.size ≤ t.size) (asks : ¬ f.AsksToClose) :
    Plain t ⟨.aborted f, []⟩

theorem Attempt.Plain.fail {α : Type} {t : Unread} {f : Failure} {commits : Bool}
    (less : f.rest.size ≤ t.size) (asks : ¬ f.AsksToClose) :
    (Attempt.mk (.fail commits f : Outcome α) []).Plain t := by
  cases commits
  · exact .rejected less asks
  · exact .aborted less asks

theorem Attempt.Plain.mono {α : Type} {t u : Unread} {x : Attempt α} (plain : x.Plain u)
    (less : u.size ≤ t.size) : x.Plain t := by
  cases plain with
  | accepted place => exact .accepted (Nat.le_trans place less)
  | rejected place asks => exact .rejected (Nat.le_trans place less) asks
  | aborted place asks => exact .aborted (Nat.le_trans place less) asks

namespace Reader

variable {α β : Type} {p q : Reader α}

def Plain (p : Reader α) : Prop := ∀ t, (p t).Plain t

theorem plain_reject {tokens : List String} (asks : tokens = [] ∨ AsksForMore tokens) :
    (reject tokens : Reader α).Plain := by
  refine fun t => .rejected (Nat.le_refl _) ?_
  obtain none | asks := asks
  · exact none ▸ Failure.not_asksToClose_nil
  · exact Failure.not_asksToClose asks

theorem plain_token {text : String} (other : text ≠ ")") : (token text).Plain := by
  intro t
  unfold token
  split
  · exact .accepted (Nat.sub_le _ _)
  · exact plain_reject (.inr ⟨text, List.mem_singleton_self text, other⟩) t

theorem plain_anyChar : anyChar.Plain := by
  intro t
  unfold anyChar
  split
  · exact plain_reject (.inr (by decide)) t
  · exact .accepted (Nat.sub_le _ _)

theorem plain_oneOf {chars : List Char} (other : ∃ c ∈ chars, c ≠ ')') : (oneOf chars).Plain := by
  have refuses := plain_reject (α := Char) (.inr (asksForMore_chars other))
  intro t
  unfold oneOf
  split
  · exact refuses t
  split
  · exact .accepted (Nat.sub_le _ _)
  · exact refuses t

theorem Plain.andThen {next : α → Reader β} (first : p.Plain) (second : ∀ a, (next a).Plain) :
    (p.andThen next).Plain := by
  intro t
  have plain := first t
  unfold Reader.andThen
  generalize p t = x at plain ⊢
  cases plain with
  | accepted less => exact (second _ _).mono less
  | rejected less asks => exact .rejected less asks
  | aborted less asks => exact .aborted less asks

theorem Plain.orElse (first : p.Plain) (second : q.Plain) : (p.orElse q).Plain := by
  intro t
  have plain := first t
  have other := second t
  unfold Reader.orElse
  generalize p t = x at plain ⊢
  cases plain with
  | accepted less => exact .accepted less
  | rejected less asks =>
    generalize q t = y at other ⊢
    cases other with
    | accepted less => exact .accepted less
    | rejected _ asksToo =>
      refine .rejected ?_ (Failure.not_asksToClose_merge asks asksToo)
      rw [Failure.size_merge]
      exact Nat.le_trans (Nat.min_le_left _ _) less
    | aborted less asks => exact .aborted less asks
  | aborted less asks => exact .aborted less asks

theorem Plain.opt (plain : p.Plain) : p.opt.Plain := by
  intro t
  have first := plain t
  unfold Reader.opt
  generalize p t = x at first ⊢
  cases first with
  | accepted less => exact .accepted less
  | rejected less asks => exact .accepted (Nat.le_refl _)
  | aborted less asks => exact .aborted less asks

theorem Plain.peek (plain : p.Plain) : p.peek.Plain := by
  intro t
  have first := plain t
  unfold Reader.peek
  generalize p t = x at first ⊢
  cases first with
  | accepted less => exact .accepted (Nat.le_refl _)
  | rejected less asks => exact .rejected less asks
  | aborted less asks => exact .aborted less asks

theorem Plain.notAhead {tokens : List String} (asksMore : AsksForMore tokens) (plain : p.Plain) :
    (p.notAhead tokens).Plain := by
  intro t
  have first := plain t
  unfold Reader.notAhead
  generalize p t = x at first ⊢
  cases first with
  | accepted less => exact .rejected (Nat.le_refl _) (Failure.not_asksToClose asksMore)
  | rejected less asks => exact .accepted (Nat.le_refl _)
  | aborted less asks => exact .aborted less asks

theorem Plain.consumed (plain : p.Plain) : p.consumed.Plain := by
  intro t
  have first := plain t
  unfold Reader.consumed
  generalize p t = x at first ⊢
  cases first with
  | accepted less => exact .accepted less
  | rejected less asks => exact .rejected less asks
  | aborted less asks => exact .aborted less asks

theorem Plain.satisfying {test : α → Bool} {tokens : List String} (asksMore : AsksForMore tokens)
    (plain : p.Plain) : (p.satisfying test tokens).Plain := by
  intro t
  have first := plain t
  have refused : ¬ (Failure.mk t (.expected tokens)).AsksToClose := Failure.not_asksToClose asksMore
  unfold Reader.satisfying
  generalize p t = x at first ⊢
  cases first with
  | accepted less =>
    dsimp only
    split
    · exact .accepted less
    · exact .rejected (Nat.le_refl _) refused
  | rejected less asks =>
    dsimp only
    split
    · exact .rejected (Nat.le_refl _) refused
    · exact .rejected less asks
  | aborted less asks => exact .aborted less asks

theorem Plain.cut {commits : Bool} (plain : p.Plain) : (Reader.cut commits p).Plain := by
  intro t
  have first := plain t
  unfold Reader.cut
  generalize p t = x at first ⊢
  cases first with
  | accepted less => exact .accepted less
  | rejected less asks => exact .fail less asks
  | aborted less asks => exact .aborted less asks

theorem Plain.resolve {commits : Bool} {f : α → Except Violation β} (plain : p.Plain) :
    (Reader.resolve commits p f).Plain := by
  intro t
  have first := plain t
  unfold Reader.resolve
  generalize p t = x at first ⊢
  cases first with
  | accepted less =>
    dsimp only
    split
    · exact .accepted less
    · exact .fail (Nat.le_refl _) Failure.not_asksToClose_violation
  | rejected less asks => exact .rejected less asks
  | aborted less asks => exact .aborted less asks

theorem Plain.many (plain : p.Plain) : Plain (Reader.many p) := by
  intro t
  induction size : t.size using Nat.strongRecOn generalizing t with
  | ind n ih =>
    have first := plain t
    rw [Reader.many]
    generalize p t = x at first ⊢
    cases first with
    | @accepted _ rest less =>
      dsimp only
      split
      · rename_i shorter
        have later := (ih rest.size (size ▸ shorter) rest rfl).mono less
        generalize Reader.many p rest = y at later ⊢
        cases later with
        | accepted less => exact .accepted less
        | rejected less asks => exact .rejected less asks
        | aborted less asks => exact .aborted less asks
      · exact .rejected (Nat.le_refl _) Failure.not_asksToClose_nil
    | rejected less asks => exact .accepted (Nat.le_refl _)
    | aborted less asks => exact .aborted less asks

theorem plain_items {s : Settings} (plain : ∀ after, (item s after).Plain) (started after : Bool) :
    Plain (items s started after) := by
  intro t
  induction size : t.size using Nat.strongRecOn generalizing t started after with
  | ind n ih =>
    have first := plain after t
    rw [items]
    generalize item s after t = x at first ⊢
    cases first with
    | @accepted value rest less =>
      dsimp only
      split
      · rename_i shorter
        have later := (ih rest.size (size ▸ shorter) true value.2 rest rfl).mono less
        split
        · exact .accepted less
        · generalize items s true value.2 rest = y at later ⊢
          cases later with
          | accepted less => exact .accepted less
          | rejected less asks => exact .rejected less asks
          | aborted less asks => exact .aborted less asks
      · exact .rejected (Nat.le_refl _) Failure.not_asksToClose_nil
    | @rejected f less asks =>
      have closing : ¬ (Failure.mk t (.expected ["]", "-["])).AsksToClose :=
        Failure.not_asksToClose (by decide)
      dsimp only
      split
      · refine .rejected ?_ (Failure.not_asksToClose_merge asks closing)
        rw [Failure.size_merge]
        exact Nat.le_trans (Nat.min_le_left _ _) less
      · exact .rejected less asks
    | aborted less asks => exact .aborted less asks

theorem inherited_plain (commits : Bool) : Inherited commits Plain where
  accept := fun _ _ => .accepted (Nat.le_refl _)
  token := plain_token
  anyChar := plain_anyChar
  oneOf := plain_oneOf
  andThen := .andThen
  orElse := .orElse
  opt := .opt
  many := fun _ => .many
  peek := .peek
  notAhead := .notAhead
  consumed := .consumed
  satisfying := .satisfying
  cut := .cut
  resolve := .resolve
  items := fun _ => plain_items

variable {t : Unread} {f g h : Failure}

theorem rejected_of_andThen {next : α → Reader β} (rejected : (p.andThen next t).outcome = .rejected g) :
    (p t).outcome = .rejected g ∨
      ∃ a rest, (p t).outcome = .accepted a rest ∧ (next a rest).outcome = .rejected g := by
  unfold Reader.andThen at rejected
  cases first : (p t).outcome with
  | accepted a rest =>
    simp only [first] at rejected
    exact .inr ⟨a, rest, rfl, rejected⟩
  | rejected f =>
    simp only [first] at rejected
    cases rejected
    exact .inl rfl
  | aborted f =>
    simp only [first] at rejected
    cases rejected

theorem rejected_of_map {b : α → β} (rejected : (p.map b t).outcome = .rejected g) :
    (p t).outcome = .rejected g := by
  obtain first | ⟨_, _, _, never⟩ := rejected_of_andThen rejected
  · exact first
  · cases never

theorem rejected_of_orElse (rejected : (p.orElse q t).outcome = .rejected h) :
    ∃ f g, (p t).outcome = .rejected f ∧ (q t).outcome = .rejected g ∧ h = f.merge g := by
  unfold Reader.orElse at rejected
  cases first : (p t).outcome with
  | accepted a rest =>
    simp only [first] at rejected
    cases rejected
  | rejected f =>
    cases second : (q t).outcome with
    | accepted a rest =>
      simp only [first, second] at rejected
      cases rejected
    | rejected g =>
      simp only [first, second] at rejected
      cases rejected
      exact ⟨f, g, rfl, rfl, rfl⟩
    | aborted g =>
      simp only [first, second] at rejected
      cases rejected
  | aborted f =>
    simp only [first] at rejected
    cases rejected

theorem rejected_of_mem_firstOf {ps : List (Reader α)}
    (rejected : (firstOf p ps t).outcome = .rejected h) (member : q ∈ p :: ps) :
    ∃ f, (q t).outcome = .rejected f ∧ h.rest.size ≤ f.rest.size := by
  refine forall_of_firstOf (P := fun q => ∃ f, (q t).outcome = .rejected f ∧ h.rest.size ≤ f.rest.size)
    (fun whole => ?_) ⟨h, rejected, Nat.le_refl _⟩ q member
  obtain ⟨m, merged, less⟩ := whole
  obtain ⟨f, g, first, second, parts⟩ := rejected_of_orElse merged
  rw [parts, Failure.size_merge] at less
  exact ⟨⟨f, first, Nat.le_trans less (Nat.min_le_left _ _)⟩,
    g, second, Nat.le_trans less (Nat.min_le_right _ _)⟩

/-- The failure of a choice is where the deepest failure of an alternative is. -/
theorem exists_deepest_of_firstOf {ps : List (Reader α)}
    (rejected : (firstOf p ps t).outcome = .rejected h) :
    ∃ q ∈ p :: ps, ∃ f, (q t).outcome = .rejected f ∧ h.rest.size = f.rest.size := by
  refine exists_of_firstOf (P := fun q => ∃ f, (q t).outcome = .rejected f ∧ h.rest.size = f.rest.size)
    (fun whole => ?_) ⟨h, rejected, rfl⟩
  obtain ⟨m, merged, same⟩ := whole
  obtain ⟨f, g, first, second, parts⟩ := rejected_of_orElse merged
  rw [parts, Failure.size_merge] at same
  obtain left | right := Nat.le_total f.rest.size g.rest.size
  · exact .inl ⟨f, first, same.trans (Nat.min_eq_left left)⟩
  · exact .inr ⟨g, second, same.trans (Nat.min_eq_right right)⟩

def RejectsWhere (R : Unread → Failure → Prop) (p : Reader α) : Prop :=
  ∀ t f, (p t).outcome = .rejected f → R t f

def AtStart (t : Unread) (f : Failure) : Prop := f.rest.size = t.size

def AtEscape (t : Unread) (f : Failure) : Prop :=
  if t.chars.head? = some '\\' then f.rest.size + 1 = t.size else AtStart t f

def Near (t : Unread) (f : Failure) : Prop := AtStart t f ∨ AtEscape t f

theorem near_atStart (t : Unread) (f : Failure) : AtStart t f → Near t f := .inl

theorem near_atEscape (t : Unread) (f : Failure) : AtEscape t f → Near t f := .inr

variable {R S : Unread → Failure → Prop}

theorem RejectsWhere.imp (rejects : p.RejectsWhere R) (imp : ∀ t f, R t f → S t f) : p.RejectsWhere S :=
  fun t f rejected => imp t f (rejects t f rejected)

theorem RejectsWhere.map (rejects : p.RejectsWhere R) (f : α → β) : (p.map f).RejectsWhere R :=
  fun t g rejected => rejects t g (rejected_of_map rejected)

theorem RejectsWhere.resolve (rejects : p.RejectsWhere R) (f : α → Except Violation β) :
    (Reader.resolve true p f).RejectsWhere R := by
  intro t g rejected
  unfold Reader.resolve at rejected
  cases first : (p t).outcome with
  | accepted a rest =>
    simp only [first] at rejected
    split at rejected <;> cases rejected
  | rejected f =>
    simp only [first] at rejected
    cases rejected
    exact rejects t _ first
  | aborted f =>
    simp only [first] at rejected
    cases rejected

theorem RejectsWhere.guarded (enabled : Bool) (rejects : p.RejectsWhere R)
    (start : ∀ t f, AtStart t f → R t f) : (Reader.guarded enabled p).RejectsWhere R := by
  cases enabled with
  | false =>
    intro t f rejected
    cases rejected
    exact start t _ rfl
  | true => exact rejects

theorem RejectsWhere.firstOf_atStart {ps : List (Reader α)}
    (rejects : ∀ r ∈ p :: ps, r.RejectsWhere AtStart) : (Reader.firstOf p ps).RejectsWhere AtStart := by
  intro t h rejected
  obtain ⟨r, among, f, failed, same⟩ := exists_deepest_of_firstOf rejected
  exact same.trans (rejects r among t f failed)

/-- If one alternative gets behind a backslash and none any further, so does the choice. -/
theorem RejectsWhere.firstOf {ps : List (Reader α)} (near : ∀ r ∈ p :: ps, r.RejectsWhere Near)
    (member : q ∈ p :: ps) (escape : q.RejectsWhere AtEscape) :
    (Reader.firstOf p ps).RejectsWhere AtEscape := by
  intro t h rejected
  obtain ⟨r, among, f, failed, same⟩ := exists_deepest_of_firstOf rejected
  obtain ⟨g, behind, less⟩ := rejected_of_mem_firstOf rejected member
  have place := escape t g behind
  have deepest := near r among t f failed
  unfold Near at deepest
  unfold AtEscape AtStart at *
  split
  · rename_i backslash
    rw [if_pos backslash] at place deepest
    omega
  · rename_i other
    rw [if_neg other] at deepest
    omega

theorem not_rejected_cut : (Reader.cut true p t).outcome ≠ .rejected f := by
  unfold cut
  cases first : (p t).outcome <;> simp [Outcome.fail, first]

theorem atStart_token (text : String) : (token text).RejectsWhere AtStart := by
  intro t f rejected
  unfold token at rejected
  split at rejected <;> cases rejected
  rfl

theorem atStart_oneOf (chars : List Char) : (oneOf chars).RejectsWhere AtStart := by
  intro t f rejected
  unfold oneOf at rejected
  split at rejected
  · cases rejected
    rfl
  · split at rejected <;> cases rejected
    rfl

theorem atStart_anyChar : anyChar.RejectsWhere AtStart := by
  intro t f rejected
  unfold anyChar at rejected
  split at rejected <;> cases rejected
  rfl

theorem RejectsWhere.satisfying (rejects : p.RejectsWhere AtStart) (test : α → Bool)
    (tokens : List String) : (p.satisfying test tokens).RejectsWhere AtStart := by
  intro t g rejected
  unfold Reader.satisfying at rejected
  cases first : (p t).outcome with
  | accepted a rest =>
    simp only [first] at rejected
    split at rejected <;> cases rejected
    rfl
  | rejected f =>
    simp only [first] at rejected
    split at rejected <;> cases rejected
    · rfl
    · exact rejects t _ first
  | aborted f =>
    simp only [first] at rejected
    cases rejected

theorem atStart_delimited (opening : String) (p : Reader α) (closing : String) :
    (delimited true opening p closing).RejectsWhere AtStart := by
  intro t f rejected
  obtain first | ⟨_, _, _, second⟩ := rejected_of_andThen rejected
  · exact atStart_token opening t f first
  · exact absurd second not_rejected_cut

theorem token_char (text : String) (c : Char) (one : text.toList = [c]) (t : Unread) : token text t =
    if t.chars.head? = some c then accept () (t.drop 1) else reject [text] t := by
  unfold token
  rw [one, ← String.length_toList, one]
  cases t.chars with
  | nil => rfl
  | cons e w =>
    by_cases same : e = c
    · simp [same]
    · simp [same, Ne.symm same]

theorem size_drop_lt {c : Char} (start : t.chars.head? = some c) : (t.drop 1).size < t.size := by
  have some : t.size ≠ 0 := by
    rw [t.size_eq]
    intro none
    rw [List.eq_nil_of_length_eq_zero none] at start
    cases start
  exact Nat.sub_one_lt some

/-- What is read behind a backslash is rejected there. -/
theorem atEscape_backslash (rejects : p.RejectsWhere AtStart) :
    ((token "\\").skipThen p).RejectsWhere AtEscape := by
  intro t f rejected
  rw [Reader.skipThen] at rejected
  obtain first | ⟨_, rest, first, second⟩ := rejected_of_andThen rejected
  all_goals
    rw [token_char "\\" '\\' (by simp)] at first
    unfold AtEscape
    split at first
    all_goals cases first
  · rw [if_neg ‹_›]
    rfl
  · rename_i backslash
    have place : f.rest.size = t.size - 1 := rejects _ f second
    have shorter : t.size - 1 < t.size := size_drop_lt backslash
    rw [if_pos backslash]
    omega

theorem not_rejected_opt : (p.opt t).outcome ≠ .rejected f := by
  unfold opt
  cases first : (p t).outcome <;> simp [first]

theorem not_rejected_many (consumes : p.Consumes) : (many p t).outcome ≠ .rejected f := by
  induction size : t.size using Nat.strongRecOn generalizing t f with
  | ind n ih =>
    rw [many]
    cases first : (p t).outcome with
    | accepted a rest =>
      have takes : p.Takes t.chars a rest.chars := by rw [Takes, t.ofList_chars, rest.ofList_chars, first]
      have shorter : rest.size < t.size := by
        rw [rest.size_eq, t.size_eq]
        exact consumes takes
      have later (g : Failure) : (many p rest).outcome ≠ .rejected g :=
        ih rest.size (size ▸ shorter) rfl
      simp only [shorter, if_true]
      cases others : (many p rest).outcome with
      | accepted values last => simp
      | rejected g => exact absurd others (later g)
      | aborted g => simp
    | rejected g => simp
    | aborted g => simp

theorem atStart_enclosed {s : Settings} (commits : s.commits = true) (opening : String)
    (inner : Option (Reader α)) (closing : String) :
    (enclosed s opening inner closing).RejectsWhere AtStart := by
  unfold enclosed
  rw [commits]
  cases inner with
  | none => exact (atStart_token opening).resolve _
  | some p => exact atStart_delimited opening p closing

end Reader

open Reader

variable {s : Settings}

theorem atEscape_escapedChar (d : Dialect) : (escapedChar d).RejectsWhere AtEscape := by
  have letter (text : String) (c : Char) : ((token text).as c).RejectsWhere AtStart :=
    (atStart_token text).map _
  refine atEscape_backslash (RejectsWhere.firstOf_atStart ?_)
  simp only [List.forall_mem_cons]
  exact ⟨letter _ _, letter _ _, letter _ _, atStart_oneOf _, List.forall_mem_nil _⟩

theorem atEscape_classEscape (commits : s.commits = true) : (classEscape s).RejectsWhere AtEscape := by
  have letter : letterEscape.RejectsWhere AtEscape := (atEscape_backslash (atStart_oneOf _)).map _
  have property (opening : String) : (delimited s.commits opening (property s) "\x7d").RejectsWhere Near := by
    rw [commits]
    exact (atStart_delimited opening _ _).imp near_atStart
  refine RejectsWhere.firstOf ?_ List.mem_cons_self letter
  simp only [List.forall_mem_cons]
  exact ⟨letter.imp near_atEscape, property _, (property _).map _, List.forall_mem_nil _⟩

theorem atEscape_backreference (commits : s.commits = true) :
    (backreference s).RejectsWhere AtEscape := by
  unfold backreference
  rw [commits]
  refine (atEscape_backslash fun t f rejected => ?_).resolve _
  obtain first | ⟨_, rest, _, others⟩ := rejected_of_andThen rejected
  · exact atStart_oneOf _ t f first
  · exact absurd (rejected_of_map others) (not_rejected_many consumes_digit)

theorem atStart_classExpr (commits : s.commits = true) (n : Nat) :
    RejectsWhere AtStart (classExpr s n) := by
  cases n <;> exact atStart_enclosed commits _ _ _

theorem atEscape_charAtom (commits : s.commits = true) (n : Nat) :
    (charAtom s (classExpr s n)).RejectsWhere AtEscape := by
  have escape := atEscape_escapedChar s.dialect
  refine RejectsWhere.firstOf ?_ List.mem_cons_self (escape.map _)
  simp only [List.forall_mem_cons]
  exact ⟨(escape.map _).imp near_atEscape, ((atEscape_classEscape commits).map _).imp near_atEscape,
    ((atStart_classExpr commits n).map _).imp near_atStart,
    ((atStart_token ".").map _).imp near_atStart, List.forall_mem_nil _⟩

theorem atEscape_atom (commits : s.commits = true) (n : Nat) (inner : Option (Reader Regex)) :
    (atom s (classExpr s n) inner).RejectsWhere AtEscape := by
  have chars := atEscape_charAtom commits n
  have anchor (text : String) (c : Nat) :
      (guarded (s.dialect = .xpath) ((token text).as (Atom.literal c))).RejectsWhere Near :=
    (((atStart_token text).map _).imp near_atStart).guarded _ near_atStart
  have group (opening : String) :
      ((enclosed s opening inner ")").map Atom.group).RejectsWhere Near :=
    ((atStart_enclosed commits opening inner ")").map _).imp near_atStart
  refine RejectsWhere.firstOf ?_ (List.mem_cons_of_mem _ List.mem_cons_self) chars
  simp only [List.forall_mem_cons]
  exact ⟨((atStart_anyChar.satisfying _ _).map _).imp near_atStart, chars.imp near_atEscape,
    anchor _ _, anchor _ _,
    ((atEscape_backreference commits).imp near_atEscape).guarded _ near_atStart,
    (group _).guarded _ near_atStart, group _, List.forall_mem_nil _⟩

end SchemaRegex.Pattern

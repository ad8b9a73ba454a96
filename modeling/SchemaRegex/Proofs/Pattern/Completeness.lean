import SchemaRegex.Pattern.Parse
import SchemaRegex.Proofs.Pattern.Soundness

/-!
# What is derived is read

A text with a derivation is taken in front of whatever cannot continue it (`takes_regexp`). An
alternative is tried when those before it have rejected, and what the text starts with makes them
reject before they come to a point of no return. So a pattern has the tree of its derivation
(`parse_builds_derivation`).
-/

namespace SchemaRegex.Pattern

open Reader

variable {s : Settings} {n : Nat}

theorem rejects_normalChar {d : Dialect} {t : List Char} (special : ∀ c ∈ t.head?, c ∈ d.metacharacters) :
    (normalChar d).Rejects t := by
  refine (recovers_anyChar.satisfying _ _).rejects_iff.mpr fun c v takes => ?_
  obtain ⟨same, plain⟩ := takes_normalChar.mp takes
  exact plain (special c (by rw [same, List.head?_cons]; rfl))

theorem rejects_escapedChar {d : Dialect} {t : List Char} (other : ¬ ['\\'] <+: t) :
    (escapedChar d).Rejects t :=
  rejects_skipThen.mpr (.inl (rejects_token.mpr (by simpa using other)))

theorem rejects_classEscape {t : List Char} (other : ¬ ['\\'] <+: t) : (classEscape s).Rejects t := by
  have longer (text : String) (u : List Char) (form : text.toList = '\\' :: u) :
      ¬ text.toList <+: t := by
    intro given
    obtain ⟨v, same⟩ := given
    rw [form] at same
    exact other ⟨u ++ v, same⟩
  apply rejects_firstOf
  simp only [List.forall_mem_cons]
  refine ⟨?_, ?_, ?_, List.forall_mem_nil _⟩
  · rw [letterEscape, rejects_map]
    exact rejects_skipThen.mpr (.inl (rejects_token.mpr (by simpa using other)))
  · exact rejects_delimited (longer "\\p\x7b" ['p', '{'] (by simp))
  · rw [rejects_map]
    exact rejects_delimited (longer "\\P\x7b" ['P', '{'] (by simp))

private theorem rejects_charAtom {t : List Char} (other : ∀ c ∈ t.head?, c ∉ ['\\', '[', '.']) :
    (charAtom s (classExpr s n)).Rejects t := by
  have start (c : Char) (special : c ∈ ['\\', '[', '.']) : ¬ [c] <+: t := by
    intro given
    obtain ⟨u, same⟩ := given
    rw [← same] at other
    exact other c rfl special
  apply rejects_firstOf
  simp only [List.forall_mem_cons, rejects_map, rejects_as, rejects_token]
  refine ⟨rejects_escapedChar (start '\\' (by simp)), rejects_classEscape (start '\\' (by simp)),
    rejects_classExpr (start '[' (by simp)), ?_, List.forall_mem_nil _⟩
  simpa using start '.' (by simp)

private theorem rejects_backreference {t : List Char} (other : ¬ ['\\'] <+: t) :
    (backreference s).Rejects t :=
  (rejects_skipThen.mpr (.inl (rejects_token.mpr (by simpa using other)))).resolve

private def BranchEnd (v : List Char) : Prop := ∀ c ∈ v.head?, c = '|' ∨ c = ')'

private def RegexEnd (v : List Char) : Prop := ∀ c ∈ v.head?, c = ')'

private theorem RegexEnd.branchEnd {v : List Char} (ends : RegexEnd v) : BranchEnd v :=
  fun c head => .inr (ends c head)

private theorem BranchEnd.not_front {v : List Char} (ends : BranchEnd v) {c : Char}
    (other : c ≠ '|' ∧ c ≠ ')') (u : List Char) : ¬ c :: u <+: v := by
  intro given
  obtain ⟨x, same⟩ := given
  rw [← same] at ends
  exact (ends c rfl).elim other.1 other.2

private theorem BranchEnd.not_startsQuantifier {v : List Char} (ends : BranchEnd v) :
    ¬ StartsQuantifier v := by
  intro given
  obtain ⟨c, head, start⟩ := given
  obtain same | same := ends c head <;> simp [same] at start

private theorem rejects_atom {v : List Char} (ends : BranchEnd v) :
    (atom s (classExpr s n) (groupReader s n)).Rejects v := by
  have noAtom (c : Char) (head : c ∈ v.head?) : NoAtom c := by
    obtain same | same := ends c head <;> simp [NoAtom, same]
  have noToken (text : String) (c : Char) (u : List Char) (form : text.toList = c :: u)
      (other : c ≠ '|' ∧ c ≠ ')') : ¬ text.toList <+: v := form ▸ ends.not_front other u
  apply rejects_firstOf
  simp only [List.forall_mem_cons, rejects_map]
  refine ⟨rejects_normalChar fun c head => (noAtom c head).mem_metacharacters,
    rejects_charAtom fun c head => ?_, rejects_guarded ?_, rejects_guarded ?_,
    rejects_guarded (rejects_backreference (ends.not_front (by decide) [])), rejects_guarded ?_, ?_,
    List.forall_mem_nil _⟩
  · obtain same | same := ends c head <;> simp [same]
  · exact rejects_as.mpr (rejects_token.mpr (noToken "^" '^' [] (by simp) (by decide)))
  · exact rejects_as.mpr (rejects_token.mpr (noToken "$" '$' [] (by simp) (by decide)))
  · rw [rejects_map]
    exact rejects_enclosed (noToken "(?:" '(' ['?', ':'] (by simp) (by decide))
  · exact rejects_enclosed (noToken "(" '(' [] (by simp) (by decide))

private theorem takes_charAtom_of_charEscape {w : List Char} {c : Char} (escape : CharEscape s.dialect w c)
    (v : List Char) : (charAtom s (classExpr s n)).Takes (w ++ v) (.literal c.toNat) v :=
  takes_firstOf_after (rfl : _ = [] ++ _ :: _) (List.forall_mem_nil _)
    (takes_map.mpr ⟨c, takes_escapedChar.mpr ⟨w, rfl, escape⟩, rfl⟩)

private theorem takes_charAtom_of_classEscape {w : List Char} {set : CodepointSet}
    (escape : ClassEscape s.dialect w set) (v : List Char) :
    (charAtom s (classExpr s n)).Takes (w ++ v) (.set set) v := by
  refine takes_firstOf_after (rfl : _ = [_] ++ _ :: _) ?_
    (takes_map.mpr ⟨set, takes_classEscape.mpr ⟨w, rfl, escape⟩, rfl⟩)
  simp only [List.forall_mem_singleton, rejects_map]
  refine (recovers_escapedChar s.dialect).rejects_iff.mpr fun c x takes => ?_
  obtain ⟨u, same, other⟩ := takes_escapedChar.mp takes
  exact escape.not_charEscape other same

private theorem takes_charAtom_of_classExpr {w : List Char} {set : CodepointSet}
    (text : Takes (classExpr { dialect := s.dialect } n) w set []) (v : List Char) :
    (charAtom s (classExpr s n)).Takes (w ++ v) (.set set) v := by
  obtain ⟨u, form⟩ := exists_of_takes_classExpr text
  have start : ¬ ['\\'] <+: w ++ v := by simp [form]
  have takes : Takes (classExpr s n) (w ++ v) set v := by
    have same : ({ dialect := s.dialect } : Settings).dialect = s.dialect := rfl
    exact takes_classExpr_append same ((List.append_nil w).symm ▸ text)
  refine takes_firstOf_after (rfl : _ = [_, _] ++ _ :: _) ?_ (takes_map.mpr ⟨set, takes, rfl⟩)
  simp only [List.forall_mem_cons, rejects_map]
  exact ⟨rejects_escapedChar start, rejects_classEscape start, List.forall_mem_nil _⟩

private theorem takes_charAtom_of_wildcard (v : List Char) :
    (charAtom s (classExpr s n)).Takes ('.' :: v) (.set .wildcard) v := by
  have start : ¬ ['\\'] <+: '.' :: v := by simp
  refine takes_firstOf_after (rfl : _ = [_, _, _] ++ _ :: _) ?_ (takes_as.mpr ⟨⟨(), by simp⟩, rfl⟩)
  simp only [List.forall_mem_cons, rejects_map]
  exact ⟨rejects_escapedChar start, rejects_classEscape start, rejects_classExpr (by simp),
    List.forall_mem_nil _⟩

private theorem takes_atom_of_charAtom {g : Option (Reader Regex)} {c : Char} {w v : List Char} {x : Atom}
    (special : c ∈ s.dialect.metacharacters)
    (takes : (charAtom s (classExpr s n)).Takes (c :: w) x v) :
    (atom s (classExpr s n) g).Takes (c :: w) x v := by
  refine takes_firstOf_after (rfl : _ = [_] ++ _ :: _) ?_ takes
  simp only [List.forall_mem_singleton, rejects_map]
  exact rejects_normalChar fun d head => by cases head; exact special

theorem metacharacter_start {d : Dialect} {c : Char} (special : c ∈ ['\\', '[', '.', '(']) :
    c ∈ d.metacharacters := by
  have all : ∀ c ∈ ['\\', '[', '.', '('], c ∈ Dialect.xsd.metacharacters := by
    simp [metacharacters_xsd]
  exact mem_metacharacters_of_xsd (all c special)

private theorem metacharacter_anchor {c : Char} (xpath : s.dialect = .xpath) (anchor : c ∈ ['^', '$']) :
    c ∈ s.dialect.metacharacters := by
  have all : ∀ c ∈ ['^', '$'], c ∈ Dialect.xpath.metacharacters := by
    simp [metacharacters_xpath]
  exact xpath ▸ all c anchor

private theorem rejects_before_group (t : List Char) :
    ((normalChar s.dialect).map fun c => Atom.literal c.toNat).Rejects ('(' :: t) ∧
    (charAtom s (classExpr s n)).Rejects ('(' :: t) ∧
    (guarded (s.dialect = .xpath) ((token "^").as (Atom.literal startMark))).Rejects ('(' :: t) ∧
    (guarded (s.dialect = .xpath) ((token "$").as (Atom.literal endMark))).Rejects ('(' :: t) ∧
    (guarded (s.dialect = .xpath) (backreference s)).Rejects ('(' :: t) := by
  refine ⟨rejects_map.mpr (rejects_normalChar ?_), rejects_charAtom ?_, rejects_guarded ?_,
    rejects_guarded ?_, rejects_guarded (rejects_backreference (by simp))⟩
  · intro c head
    cases head
    exact metacharacter_start (by simp)
  · intro c head
    cases head
    decide
  · exact rejects_as.mpr (rejects_token.mpr (by simp))
  · exact rejects_as.mpr (rejects_token.mpr (by simp))

private theorem rejects_before_anchor {c : Char} (xpath : s.dialect = .xpath) (anchor : c ∈ ['^', '$'])
    (t : List Char) : ((normalChar s.dialect).map fun c => Atom.literal c.toNat).Rejects (c :: t) ∧
      (charAtom s (classExpr s n)).Rejects (c :: t) := by
  refine ⟨rejects_map.mpr (rejects_normalChar ?_), rejects_charAtom ?_⟩
  · intro d head
    cases head
    exact metacharacter_anchor xpath anchor
  · intro d head
    cases head
    obtain same | same : c = '^' ∨ c = '$' := by simpa using anchor
    · rw [same]
      decide
    · rw [same]
      decide

/-- The text in parentheses does not start with a question mark, so `(` is not mistaken for `(?:`. -/
theorem DerivesRegex.not_plainGroup {d : Dialect} {w : List Char} {r : Regex}
    (regex : DerivesRegex d n w r) (v : List Char) : ¬ "(?:".toList <+: '(' :: w ++ ')' :: v := by
  obtain none | ⟨c, u, same, start⟩ := regex.start
  · simp [none]
  · rw [same]
    intro front
    have mark : '?' = c := by
      have front : ['?', ':'] <+: c :: u ++ ')' :: v := by simpa using front
      simpa using (List.cons_prefix_cons.mp front).1
    rw [← mark] at start
    obtain bar | noAtom := start
    · cases bar
    · exact noAtom (by decide)

/-- A text of the grammar for an atom is taken, if those for what is in parentheses are. -/
theorem takes_atom {w : List Char} {x : Atom}
    (inside : ∀ m, n = m + 1 → ∀ {w r v}, DerivesRegex s.dialect m w r → RegexEnd v →
      Takes (regexp s m) (w ++ v) r v)
    (derives : DerivesAtom s.dialect n w x) (v : List Char) :
    (atom s (classExpr s n) (groupReader s n)).Takes (w ++ v) x v := by
  cases derives with
  | @character _ c plain =>
    exact takes_firstOf_after (rfl : _ = [] ++ _ :: _) (List.forall_mem_nil _)
      (takes_map.mpr ⟨c, takes_normalChar.mpr ⟨rfl, plain⟩, rfl⟩)
  | charEscape escape =>
    obtain ⟨e, form, _⟩ := escape.start
    have takes := takes_charAtom_of_charEscape (n := n) escape v
    rw [form] at takes ⊢
    exact takes_atom_of_charAtom (metacharacter_start (by simp)) takes
  | classEscape escape =>
    obtain ⟨e, u, form, _⟩ := escape.start
    have takes := takes_charAtom_of_classEscape (n := n) escape v
    rw [form] at takes ⊢
    exact takes_atom_of_charAtom (metacharacter_start (by simp)) takes
  | classExpr text =>
    obtain ⟨u, form⟩ := exists_of_takes_classExpr text
    have takes := takes_charAtom_of_classExpr text v
    rw [form] at takes ⊢
    exact takes_atom_of_charAtom (metacharacter_start (by simp)) takes
  | wildcard =>
    exact takes_atom_of_charAtom (metacharacter_start (by simp)) (takes_charAtom_of_wildcard v)
  | startAnchor xpath =>
    obtain ⟨normal, special⟩ := rejects_before_anchor (n := n) (c := '^') xpath (by simp) v
    refine takes_firstOf_after (rfl : _ = [_, _] ++ _ :: _) ?_
      (takes_guarded.mpr ⟨decide_eq_true xpath, takes_as.mpr ⟨⟨(), by simp⟩, rfl⟩⟩)
    exact List.forall_mem_cons.mpr ⟨normal, List.forall_mem_singleton.mpr special⟩
  | endAnchor xpath =>
    obtain ⟨normal, special⟩ := rejects_before_anchor (n := n) (c := '$') xpath (by simp) v
    refine takes_firstOf_after (rfl : _ = [_, _, _] ++ _ :: _) ?_
      (takes_guarded.mpr ⟨decide_eq_true xpath, takes_as.mpr ⟨⟨(), by simp⟩, rfl⟩⟩)
    simp only [List.forall_mem_cons]
    exact ⟨normal, special, rejects_guarded (rejects_as.mpr (rejects_token.mpr (by simp))),
      List.forall_mem_nil _⟩
  | @plainGroup m w r xpath regex =>
    have takes := inside m rfl regex (v := ')' :: v) (fun c head => by cases head; rfl)
    refine takes_firstOf_after (rfl : _ = [_, _, _, _, _] ++ _ :: _) ?_
      (takes_guarded.mpr ⟨decide_eq_true xpath, takes_map.mpr ⟨r, takes_enclosed.mpr
        ⟨_, rfl, w ++ ')' :: v, by simp, takes⟩, rfl⟩⟩)
    obtain ⟨normal, special, atStart, atEnd, back⟩ := rejects_before_group (s := s) (n := m + 1)
      ('?' :: ':' :: w ++ ')' :: v)
    have same : '(' :: '?' :: ':' :: w ++ [')'] ++ v = '(' :: '?' :: ':' :: w ++ ')' :: v := by simp
    rw [same]
    simp only [List.forall_mem_cons]
    exact ⟨normal, special, atStart, atEnd, back, List.forall_mem_nil _⟩
  | @group m w r regex =>
    have takes := inside m rfl regex (v := ')' :: v) (fun c head => by cases head; rfl)
    refine takes_firstOf_after (rfl : _ = [_, _, _, _, _, _] ++ _ :: _) ?_
      (takes_map.mpr ⟨r, takes_enclosed.mpr ⟨_, rfl, w ++ ')' :: v, by simp, takes⟩, rfl⟩)
    obtain ⟨normal, special, atStart, atEnd, back⟩ := rejects_before_group (s := s) (n := m + 1)
      (w ++ ')' :: v)
    have same : '(' :: w ++ [')'] ++ v = '(' :: w ++ ')' :: v := by simp
    rw [same]
    simp only [List.forall_mem_cons]
    refine ⟨normal, special, atStart, atEnd, back, rejects_guarded (rejects_map.mpr ?_),
      List.forall_mem_nil _⟩
    exact rejects_enclosed (regex.not_plainGroup v)

variable {a : Reader Atom}

private theorem takes_piece {w v : List Char} {p : Piece}
    (inside : ∀ {w x}, DerivesAtom s.dialect n w x → ∀ v, a.Takes (w ++ v) x v)
    (derives : DerivesPiece s.dialect n w p) (ends : ¬ StartsQuantifier v) :
    (piece s a).Takes (w ++ v) p v := by
  rw [piece, takes_recorded, takes_map]
  cases derives with
  | @once _ _ x atom =>
    refine ⟨(x, none), takes_pair.mpr ⟨v, inside atom v, ?_⟩, rfl⟩
    exact takes_opt_none.mpr ⟨rejects_quantifier ends, rfl⟩
  | @quantified _ u w x q atom text =>
    refine ⟨(x, some q), takes_pair.mpr ⟨w ++ v, ?_, ?_⟩, rfl⟩
    · rw [List.append_assoc]
      exact inside atom (w ++ v)
    · exact takes_opt_some.mpr (takes_quantifier text ends)

private theorem DerivesBranch.not_startsQuantifier {d : Dialect} {w v : List Char} {b : Branch}
    (branch : DerivesBranch d n w b) (ends : BranchEnd v) : ¬ StartsQuantifier (w ++ v) := by
  obtain none | ⟨c, u, same, start⟩ := branch.start
  · rw [none]
    exact ends.not_startsQuantifier
  · rw [same]
    intro given
    obtain ⟨e, head, quantifier⟩ := given
    cases head
    exact start (List.mem_append_left _ quantifier)

private theorem takes_branch {w v : List Char} {b : Branch}
    (rejects : ∀ {v}, BranchEnd v → a.Rejects v)
    (inside : ∀ {w x}, DerivesAtom s.dialect n w x → ∀ v, a.Takes (w ++ v) x v)
    (derives : DerivesBranch s.dialect n w b) (ends : BranchEnd v) :
    (branch s a).Takes (w ++ v) b v := by
  obtain ⟨ps⟩ := b
  refine takes_map.mpr ⟨ps, ?_, rfl⟩
  induction ps generalizing w with
  | nil =>
    cases derives
    refine takes_many_nil.mpr ⟨?_, rfl⟩
    rw [piece, rejects_recorded, rejects_map]
    exact rejects_pair.mpr (.inl (rejects ends))
  | cons p ps ih =>
    cases derives with
    | @piece _ u w _ _ first others =>
      rw [List.append_assoc]
      refine takes_many_cons.mpr ⟨w ++ v, takes_piece inside first ?_, ?_, ih others⟩
      · exact others.not_startsQuantifier ends
      · obtain ⟨c, u, same, _⟩ := first.start
        simp only [same, List.cons_append, List.length_cons, List.length_append]
        omega

/-- An expression is a branch and, for each other branch, a bar and that branch. -/
theorem takes_bars {w v : List Char} {b : Branch} {bs : List Branch}
    (rejects : ∀ {v}, BranchEnd v → a.Rejects v)
    (inside : ∀ {w x}, DerivesAtom s.dialect n w x → ∀ v, a.Takes (w ++ v) x v)
    (derives : DerivesRegex s.dialect n w ⟨b :: bs⟩) (ends : RegexEnd v) :
    ∃ u y, w = u ++ y ∧ DerivesBranch s.dialect n u b ∧ BranchEnd (y ++ v) ∧
      Takes (many ((token "|").skipThen (cut s.commits (branch s a)))) (y ++ v) bs v := by
  induction bs generalizing w b with
  | nil =>
    cases derives with
    | branch only =>
      refine ⟨w, [], (List.append_nil w).symm, only, ends.branchEnd, takes_many_nil.mpr ⟨?_, rfl⟩⟩
      refine rejects_skipThen.mpr (.inl (rejects_token.mpr fun front => ?_))
      obtain ⟨u, same⟩ := front
      rw [List.nil_append] at same
      have bar : '|' = ')' := ends '|' (by rw [← same]; simp)
      cases bar
    | alternative _ others => cases others
  | cons c cs ih =>
    cases derives with
    | @alternative _ u w _ _ first others =>
      obtain ⟨x, y, same, second, front, more⟩ := ih others
      refine ⟨u, '|' :: w, rfl, first, fun c head => by cases head; exact .inl rfl, ?_⟩
      refine takes_many_cons.mpr ⟨y ++ v, takes_skipThen.mpr ⟨(), x ++ (y ++ v), ?_, ?_⟩, ?_, more⟩
      · simp [same]
      · exact takes_cut.mpr (takes_branch rejects inside second front)
      · rw [same]
        simp only [List.cons_append, List.append_assoc, List.length_cons, List.length_append]
        omega

private theorem takes_branches {w v : List Char} {r : Regex}
    (rejects : ∀ {v}, BranchEnd v → a.Rejects v)
    (inside : ∀ {w x}, DerivesAtom s.dialect n w x → ∀ v, a.Takes (w ++ v) x v)
    (derives : DerivesRegex s.dialect n w r) (ends : RegexEnd v) :
    (branches s a).Takes (w ++ v) r v := by
  obtain ⟨bs⟩ := r
  cases bs with
  | nil => cases derives
  | cons b bs =>
    obtain ⟨u, y, same, first, front, others⟩ := takes_bars rejects inside derives ends
    rw [same, List.append_assoc]
    exact takes_map.mpr ⟨(b, bs), takes_pair.mpr
      ⟨y ++ v, takes_branch rejects inside first front, others⟩, rfl⟩

/-- What is derived is taken, in front of a closing parenthesis or the end. -/
theorem takes_regexp {w v : List Char} {r : Regex} (derives : DerivesRegex s.dialect n w r)
    (ends : RegexEnd v) : Takes (regexp s n) (w ++ v) r v := by
  induction n generalizing w v r with
  | zero =>
    rw [regexp_eq]
    refine takes_branches rejects_atom (fun atom => takes_atom (fun m depth => ?_) atom) derives ends
    cases depth
  | succ n ih =>
    rw [regexp_eq]
    refine takes_branches rejects_atom (fun atom => takes_atom (fun m depth => ?_) atom) derives ends
    cases depth
    exact ih

private theorem takes_regexp_all {w : List Char} {r : Regex} :
    Takes ((Reader.thenSkip (regexp s n) atEnd)) w r [] ↔ DerivesRegex s.dialect n w r := by
  rw [takes_thenSkip]
  constructor
  · intro given
    obtain ⟨u, takes, _, ends⟩ := given
    obtain ⟨v, same, regex⟩ := derivesRegex_of_takes takes
    rw [(takes_atEnd.mp ends).1, List.append_nil] at same
    exact same ▸ regex
  · intro derives
    have takes := takes_regexp (v := []) derives (fun c head => by cases head)
    rw [List.append_nil] at takes
    exact ⟨[], takes, (), takes_atEnd.mpr ⟨rfl, rfl⟩⟩

/-- Changing a rejection does not make a tree. -/
theorem pattern_eq_accepted {t : List Char} {r : Regex} :
    (∃ v, pattern s (.ofList t) = .accepted r v) ↔
      Takes (Reader.thenSkip (regexp s s.nestLimit) atEnd) t r [] := by
  cases whole : (Reader.thenSkip (regexp s s.nestLimit) atEnd (.ofList t)).outcome with
  | accepted q v =>
    simp only [pattern, whole, Outcome.accepted.injEq]
    constructor
    · intro given
      obtain ⟨_, value, _⟩ := given
      have takes : Takes (Reader.thenSkip (regexp s s.nestLimit) atEnd) t r v.chars := by
        rw [Takes, whole, v.ofList_chars, value]
      obtain ⟨_, _, _, ends⟩ := takes_thenSkip.mp takes
      rw [(takes_atEnd.mp ends).2] at takes
      exact takes
    · intro takes
      rw [Takes, whole] at takes
      injection takes with value _
      exact ⟨v, value, rfl⟩
  | rejected f =>
    have never : ¬ Takes (Reader.thenSkip (regexp s s.nestLimit) atEnd) t r [] :=
      Rejects.not_takes ⟨f, whole⟩
    simp only [pattern, whole, never, iff_false, not_exists]
    intro v same
    split at same <;> cases same
  | aborted f => simp [pattern, Takes, whole]

theorem parse_eq_ok {text : String} {r : Regex} :
    parse s text = .ok r ↔ DerivesRegex s.dialect s.nestLimit text.toList r := by
  rw [← takes_regexp_all, ← pattern_eq_accepted, parse]
  cases pattern s (.ofList text.toList) <;> simp

/-- The tree of a pattern is that of its derivation, of which there is at most one. -/
theorem parse_builds_derivation (s : Settings) (text : String) :
    (∀ r, parse s text = .ok r ↔ DerivesRegex s.dialect s.nestLimit text.toList r) ∧
    ∀ r q, DerivesRegex s.dialect s.nestLimit text.toList r →
      DerivesRegex s.dialect s.nestLimit text.toList q → r = q := by
  refine ⟨fun r => parse_eq_ok, fun r q first second => ?_⟩
  have same := (parse_eq_ok.mpr first).symm.trans (parse_eq_ok.mpr second)
  injection same

end SchemaRegex.Pattern

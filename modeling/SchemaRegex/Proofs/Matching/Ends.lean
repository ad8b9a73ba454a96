import SchemaRegex.Proofs.Matching.Compiled
import SchemaRegex.Proofs.Matching.Substring
import SchemaRegex.Proofs.Matching.ZeroWidth

/-!
# Meeting the ends of the subject

The program takes the mark of an end whenever it meets an anchor, and there is one mark at each end. So
it finds those matches that meet each end at most once, and the start before the end
(`infix_iff_walks`). With anchors that take no codepoint there may be others.
-/

namespace SchemaRegex

variable {s : List Nat}

def isMark (c : Nat) : Bool := c == startMark || c == endMark

/-- The ends that a word meets are at most the start and then the end. -/
def MeetsOnce (u : List Nat) : Prop := (u.filter isMark).Sublist [startMark, endMark]

private def place (s : List Nat) (k : Nat) : Nat := min (k - 1) s.length

private theorem filter_isMark_of_unmarked {u : List Nat} (plain : Unmarked u) : u.filter isMark = [] := by
  refine List.filter_eq_nil_iff.mpr fun c member mark => ?_
  simp only [isMark, Bool.or_eq_true, beq_iff_eq] at mark
  exact mark.elim (plain c member).1 (plain c member).2

private theorem unmarked_of_filter {u : List Nat} (none : ∀ c ∈ u, ¬ isMark c = true) : Unmarked u := by
  intro c member
  have other := none c member
  simpa [isMark] using other

private theorem step_place (plain : Unmarked s) {c k : Nat}
    (stands : (startMark :: s ++ [endMark])[k]? = some c) : Step s c (place s k) (place s (k + 1)) := by
  cases k with
  | zero =>
    cases stands
    rw [Step, if_pos rfl]
    exact ⟨Nat.zero_min _, Nat.zero_min _⟩
  | succ k =>
    rw [List.cons_append, List.getElem?_cons_succ] at stands
    by_cases within : k < s.length
    · rw [List.getElem?_append_left within] at stands
      obtain ⟨notStart, notEnd⟩ := plain c (List.mem_of_getElem? stands)
      have here : place s (k + 1) = k := by
        simp only [place]
        omega
      have next : place s (k + 1 + 1) = k + 1 := by
        simp only [place]
        omega
      rw [Step, if_neg notStart, if_neg notEnd, here, next]
      exact ⟨stands, rfl⟩
    · have behind : s.length ≤ k := Nat.le_of_not_lt within
      rw [List.getElem?_append_right behind, List.getElem?_singleton] at stands
      split at stands
      · cases stands
        have differ : endMark ≠ startMark := by decide
        rw [Step, if_neg differ, if_pos rfl]
        exact ⟨Nat.min_eq_right (by omega), Nat.min_eq_right (by omega)⟩
      · cases stands

private theorem walks_places (plain : Unmarked s) {u before after : List Nat}
    (parts : startMark :: s ++ [endMark] = before ++ u ++ after) :
    Walks s u (place s before.length) (place s (before.length + u.length)) := by
  induction u generalizing before with
  | nil => rfl
  | cons c u ih =>
    have parts : startMark :: s ++ [endMark] = before ++ [c] ++ u ++ after := by
      simpa using parts
    have stands : (startMark :: s ++ [endMark])[before.length]? = some c := by
      rw [parts]
      simp
    have others := ih parts
    rw [List.length_append, List.length_singleton] at others
    refine ⟨_, step_place plain stands, ?_⟩
    rw [List.length_cons, Nat.add_comm u.length 1, ← Nat.add_assoc]
    exact others

private theorem walks_unmarked {u : List Nat} {i j : Nat} (plain : Unmarked u) (walks : Walks s u i j) :
    s.drop i = u ++ s.drop j ∧ j = i + u.length := by
  induction u generalizing i with
  | nil =>
    cases walks
    exact ⟨rfl, rfl⟩
  | cons c u ih =>
    obtain ⟨m, step, walks⟩ := walks
    obtain ⟨notStart, notEnd⟩ := plain c List.mem_cons_self
    rw [Step, if_neg notStart, if_neg notEnd] at step
    obtain ⟨stands, next⟩ := step
    obtain ⟨within, stands⟩ := List.getElem?_eq_some_iff.mp stands
    obtain ⟨rest, length⟩ := ih (fun d member => plain d (List.mem_cons_of_mem c member)) walks
    rw [next] at rest length
    refine ⟨?_, by rw [length, List.length_cons]; omega⟩
    rw [List.drop_eq_getElem_cons within, stands, rest, List.cons_append]

private theorem nothing_before_mark {u : List Nat} {i : Nat} (plain : Unmarked u) (walks : Walks s u i 0) :
    u = [] ∧ i = 0 := by
  obtain ⟨_, length⟩ := walks_unmarked plain walks
  exact ⟨List.length_eq_zero_iff.mp (by omega), by omega⟩

private theorem nothing_behind_mark {u : List Nat} {j : Nat} (plain : Unmarked u)
    (walks : Walks s u s.length j) : u = [] := by
  obtain ⟨rest, _⟩ := walks_unmarked plain walks
  rw [List.drop_length] at rest
  exact (List.append_eq_nil_iff.mp rest.symm).1

private theorem walks_start {u v : List Nat} {i j : Nat} (plain : Unmarked u)
    (walks : Walks s (u ++ startMark :: v) i j) : u = [] ∧ Walks s v 0 j := by
  obtain ⟨m, front, k, step, back⟩ := walks_append.mp walks
  rw [Step, if_pos rfl] at step
  rw [step.1] at front
  rw [step.2] at back
  exact ⟨(nothing_before_mark plain front).1, back⟩

private theorem walks_end {u v : List Nat} {i j : Nat} (plain : Unmarked v)
    (walks : Walks s (u ++ endMark :: v) i j) : v = [] ∧ Walks s u i s.length := by
  obtain ⟨m, front, k, step, back⟩ := walks_append.mp walks
  have differ : endMark ≠ startMark := by decide
  rw [Step, if_neg differ, if_pos rfl] at step
  rw [step.1] at front
  rw [step.2] at back
  exact ⟨nothing_behind_mark plain back, front⟩

private theorem MeetsOnce.form {u : List Nat} (once : MeetsOnce u) : Unmarked u ∨
    (∃ x y, u = x ++ startMark :: y ∧ Unmarked x ∧ Unmarked y) ∨
    (∃ x y, u = x ++ endMark :: y ∧ Unmarked x ∧ Unmarked y) ∨
    ∃ x y z, u = x ++ startMark :: (y ++ endMark :: z) ∧ Unmarked x ∧ Unmarked y ∧ Unmarked z := by
  have lone {u : List Nat} {c : Nat} (marks : u.filter isMark = [c]) :
      ∃ x y, u = x ++ c :: y ∧ Unmarked x ∧ Unmarked y := by
    obtain ⟨x, y, same, before, _, behind⟩ := List.filter_eq_cons_iff.mp marks
    exact ⟨x, y, same, unmarked_of_filter before,
      unmarked_of_filter (List.filter_eq_nil_iff.mp behind)⟩
  obtain once | ⟨marks, start, once⟩ := List.sublist_cons_iff.mp once
  · obtain once | ⟨marks, atEnd, once⟩ := List.sublist_cons_iff.mp once
    · exact .inl (unmarked_of_filter (List.filter_eq_nil_iff.mp (List.sublist_nil.mp once)))
    · rw [List.sublist_nil.mp once] at atEnd
      exact .inr (.inr (.inl (lone atEnd)))
  · obtain once | ⟨others, atEnd, once⟩ := List.sublist_cons_iff.mp once
    · rw [List.sublist_nil.mp once] at start
      exact .inr (.inl (lone start))
    · rw [atEnd, List.sublist_nil.mp once] at start
      obtain ⟨x, v, same, before, _, behind⟩ := List.filter_eq_cons_iff.mp start
      obtain ⟨y, z, more, between, last⟩ := lone behind
      exact .inr (.inr (.inr ⟨x, y, z, more ▸ same, unmarked_of_filter before, between, last⟩))

private theorem infix_of_walks {u : List Nat} {i j : Nat} (once : MeetsOnce u) (walks : Walks s u i j) :
    u <:+: startMark :: s ++ [endMark] := by
  have whole := s.take_append_drop i
  obtain plain | ⟨x, y, same, before, behind⟩ | ⟨x, y, same, before, behind⟩ |
    ⟨x, y, z, same, before, between, behind⟩ := once.form
  · rw [(walks_unmarked plain walks).1] at whole
    have marked : startMark :: s ++ [endMark] =
        startMark :: (s.take i ++ (u ++ s.drop j)) ++ [endMark] := by rw [whole]
    exact ⟨startMark :: s.take i, s.drop j ++ [endMark], by simp [marked]⟩
  · subst same
    obtain ⟨none, walks⟩ := walks_start before walks
    have front := (walks_unmarked behind walks).1
    rw [List.drop_zero] at front
    have marked : startMark :: s ++ [endMark] = startMark :: (y ++ s.drop j) ++ [endMark] := by
      rw [← front]
    exact ⟨[], s.drop j ++ [endMark], by simp [none, marked]⟩
  · subst same
    obtain ⟨none, walks⟩ := walks_end behind walks
    rw [(walks_unmarked before walks).1, List.drop_length, List.append_nil] at whole
    have marked : startMark :: s ++ [endMark] = startMark :: (s.take i ++ x) ++ [endMark] := by
      rw [whole]
    exact ⟨startMark :: s.take i, [], by simp [none, marked]⟩
  · subst same
    obtain ⟨none, walks⟩ := walks_start before walks
    obtain ⟨last, walks⟩ := walks_end behind walks
    have same := (walks_unmarked between walks).1
    rw [List.drop_length, List.append_nil, List.drop_zero] at same
    exact ⟨[], [], by simp [none, last, same]⟩

/-- A word stands in the subject with its marks if it leads through the subject and meets each end at
most once. -/
theorem infix_iff_walks (plain : Unmarked s) {u : List Nat} :
    u <:+: startMark :: s ++ [endMark] ↔
      MeetsOnce u ∧ ∃ i j, i ≤ j ∧ j ≤ s.length ∧ Walks s u i j := by
  constructor
  · intro part
    obtain ⟨before, after, parts⟩ := part
    refine ⟨?_, place s before.length, place s (before.length + u.length), ?_, Nat.min_le_right _ _,
      walks_places plain parts.symm⟩
    · have marks : (startMark :: s ++ [endMark]).filter isMark = [startMark, endMark] := by
        have start : isMark startMark = true := rfl
        have atEnd : isMark endMark = true := rfl
        simp [List.filter_append, start, atEnd, filter_isMark_of_unmarked plain]
      rw [MeetsOnce, ← marks, ← parts]
      exact List.Sublist.filter isMark (List.sublist_append_of_sublist_left
        (List.sublist_append_right before u))
    · simp only [place]
      omega
  · intro given
    obtain ⟨once, i, j, _, _, walks⟩ := given
    exact infix_of_walks once walks

/-- Some part of the subject is matched, where anchors take no codepoint. -/
def Regex.MatchesPart (r : Regex) (s : List Nat) : Prop :=
  ∃ i j, i ≤ j ∧ j ≤ s.length ∧ r.Spans s i j

/-- Some part of the subject is matched along a word that meets each end at most once. Equal anchors
side by side count as one. -/
def Regex.MatchesMeetingOnce (r : Regex) (s : List Nat) : Prop :=
  ∃ u ∈ r.merged.language, MeetsOnce u ∧ ∃ i j, i ≤ j ∧ j ≤ s.length ∧ Walks s u i j

private theorem Regex.MatchesMeetingOnce.matchesPart {r : Regex} (found : r.MatchesMeetingOnce s) :
    r.MatchesPart s := by
  obtain ⟨u, inside, _, i, j, inOrder, within, walks⟩ := found
  refine ⟨i, j, inOrder, within, ?_⟩
  rw [← Regex.spans_merged, Regex.spans_iff]
  exact ⟨u, inside, walks⟩

private theorem accepts_marked_iff {r : Regex} {limit : Nat} {p : Program} (ordered : r.Ordered)
    (fits : r.compile .xpath limit = .ok p) (plain : Unmarked s) :
    ((Machine.ofSize p.size).accepts p (startMark :: s ++ [endMark])).1 = true ↔
      r.MatchesMeetingOnce s := by
  rw [accepts_xpath_iff ordered fits]
  constructor
  · intro given
    obtain ⟨before, u, after, same, inside⟩ := given
    exact ⟨u, inside, (infix_iff_walks plain).mp ⟨before, after, same.symm⟩⟩
  · intro found
    obtain ⟨u, inside, walks⟩ := found
    obtain ⟨before, after, same⟩ := (infix_iff_walks plain).mpr walks
    exact ⟨before, u, after, same.symm, inside⟩

/-- An XPath matcher finds a match that meets each end of the subject at most once. It is right about
anchors that take no codepoint exactly if there is such a match whenever there is any. -/
theorem xpath_matcher_meets_ends_once {pattern : String} {limit : Nat} {m : Matcher}
    (compiled : Matcher.compile pattern .xpath limit = .ok m) :
    ∃ r, Pattern.parse { dialect := .xpath } pattern = .ok r ∧ ∀ subject : String,
      let s := codepoints subject
      (m.matchesText subject = true ↔ r.MatchesMeetingOnce s) ∧
      ((m.matchesText subject = true ↔ r.MatchesPart s) ↔
        (r.MatchesPart s → r.MatchesMeetingOnce s)) := by
  obtain ⟨r, p, parsed, fits, same⟩ := Matcher.compile_eq_ok.mp compiled
  refine ⟨r, parsed, fun subject => ?_⟩
  intro s
  have ordered := r.ordered_of_derives (Pattern.parse_eq_ok.mp parsed)
  have finds : m.matchesText subject = true ↔ r.MatchesMeetingOnce s := by
    rw [same]
    exact accepts_marked_iff ordered fits (unmarked_codepoints subject)
  refine ⟨finds, ?_⟩
  rw [finds]
  exact ⟨Iff.mpr, fun found => ⟨Regex.MatchesMeetingOnce.matchesPart, found⟩⟩

/-- The tree of `(^)^a`, in which the start is met twice. -/
def startTwice : Regex :=
  ⟨[⟨[⟨.group ⟨[⟨[⟨.literal startMark, .once⟩]⟩]⟩, .once⟩, ⟨.literal startMark, .once⟩,
    ⟨.literal 97, .once⟩]⟩]⟩

private theorem parse_startTwice : Pattern.parse { dialect := .xpath } "(^)^a" = .ok startTwice := by
  have text : "(^)^a".toList = ['(', '^', ')', '^', 'a'] := by simp
  have plain : 'a' ∉ Dialect.xpath.metacharacters := by simp [metacharacters_xpath]
  have anchor {n : Nat} : Pattern.DerivesPiece .xpath n ['^'] ⟨.literal startMark, .once⟩ :=
    .once (.startAnchor rfl)
  have group : Pattern.DerivesAtom .xpath 100 ['(', '^', ')'] _ :=
    .group (.branch (.piece anchor .empty))
  refine Pattern.parse_eq_ok.mpr ?_
  rw [text]
  exact .branch (.piece (.once group) (.piece anchor (.piece (.once (.character plain)) .empty)))

private theorem mem_startTwice {u : List Nat} :
    u ∈ startTwice.language ↔ u = [startMark, startMark, 97] := by
  have group (r : Regex) : (Atom.group r).language = r.language := by rw [Atom.language]
  simp only [startTwice, Regex.language, branchesLanguage, Branch.language, piecesLanguage,
    piece_once_language, group, mul_one, add_zero]
  constructor
  · intro inside
    obtain ⟨v, first, w, others, same⟩ := Language.mem_mul.mp inside
    obtain ⟨x, second, y, last, more⟩ := Language.mem_mul.mp others
    cases first
    cases second
    cases last
    rw [← same, ← more]
    rfl
  · intro same
    rw [same]
    exact Language.append_mem_mul (a := [startMark]) rfl
      (Language.append_mem_mul (a := [startMark]) (b := [97]) rfl rfl)

private theorem startTwice_matchesPart : startTwice.MatchesPart [97] := by
  refine ⟨0, 1, Nat.zero_le 1, Nat.le_refl 1, (Regex.spans_iff startTwice 0 1).mpr ?_⟩
  refine ⟨_, mem_startTwice.mpr rfl, ?_⟩
  simp [Walks, Step, startMark, endMark, lastCodepoint]

private theorem startTwice_not_matchesMeetingOnce : ¬ startTwice.MatchesMeetingOnce [97] := by
  have merged : startTwice.merged = startTwice := by
    simp [startTwice, Regex.merged, mergedBranches, Branch.merged, mergedPieces, Piece.merged,
      Piece.anchor?, Atom.merged, Quantifier.once, startMark, endMark, lastCodepoint]
  intro found
  obtain ⟨u, inside, once, _⟩ := found
  rw [merged, mem_startTwice] at inside
  rw [inside] at once
  revert once
  unfold MeetsOnce
  decide

/-- The start is met twice in `(^)^a`, so the matcher does not find the match that there is in `a`. -/
theorem xpath_matcher_misses_second_anchor :
    ∃ m, Matcher.compile "(^)^a" .xpath 64 = .ok m ∧
      startTwice.MatchesPart (codepoints "a") ∧ ¬ m.matchesText "a" = true := by
  have subject : codepoints "a" = [97] := by simp [codepoints]
  have fits : startTwice.compile .xpath 64 = .ok _ := compile_of_fits startTwice .xpath (by decide)
  have compiled := Matcher.compile_eq_ok.mpr ⟨startTwice, _, parse_startTwice, fits, rfl⟩
  obtain ⟨r, parsed, exactly⟩ := xpath_matcher_meets_ends_once compiled
  cases parse_startTwice.symm.trans parsed
  have found := (exactly "a").1
  rw [subject] at found ⊢
  exact ⟨_, compiled, startTwice_matchesPart, fun matched =>
    startTwice_not_matchesMeetingOnce (found.mp matched)⟩

end SchemaRegex

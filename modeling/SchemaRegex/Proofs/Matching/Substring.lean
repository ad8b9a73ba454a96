import SchemaRegex.Matcher
import SchemaRegex.Proofs.Matching.Words

/-!
# Matching a part of the subject

Without anchors an XPath pattern matches a subject if a schema pattern of the same expression matches
some part of it. The marks around the subject are never taken by the expression, only by what the
program takes before and after; so anchors around the expression pin the part to an end.
-/

namespace SchemaRegex

def Regex.anchored (atStart atEnd : Bool) (r : Regex) : Regex :=
  ⟨[⟨(if atStart then [⟨.literal startMark, .once⟩] else []) ++ ⟨.group r, .once⟩ ::
    if atEnd then [⟨.literal endMark, .once⟩] else []⟩]⟩

private theorem Quantifier.once_allows {k : Nat} : Quantifier.once.Allows k ↔ k = 1 := by
  simp only [Quantifier.Allows, Quantifier.once, Option.mem_some_iff, forall_eq']
  omega

theorem piece_once_language (x : Atom) : (⟨x, .once⟩ : Piece).language = x.language := by
  apply Set.ext
  intro w
  constructor
  · intro given
    obtain ⟨k, allowed, inside⟩ := given
    rw [Quantifier.once_allows.mp allowed, pow_one] at inside
    exact inside
  · intro inside
    refine ⟨1, Quantifier.once_allows.mpr rfl, ?_⟩
    rw [pow_one]
    exact inside

private theorem Regex.Ordered.anchored {r : Regex} (ordered : r.Ordered) (atStart atEnd : Bool) :
    (r.anchored atStart atEnd).Ordered := by
  cases atStart <;> cases atEnd <;>
    simp [Regex.anchored, Regex.Ordered, Regex.Every, BranchesEvery, Branch.Every, PiecesEvery,
      Piece.Every, Atom.Every, Quantifier.once_ordered] <;>
    exact ordered

private theorem merged_anchored {r : Regex} (free : r.MarkFree) (atStart atEnd : Bool) :
    (r.anchored atStart atEnd).merged = r.anchored atStart atEnd := by
  cases atStart <;> cases atEnd <;>
    simp [Regex.anchored, Regex.merged, mergedBranches, Branch.merged, mergedPieces, Piece.merged,
      Piece.anchor?, Atom.merged, r.merged_eq free, Quantifier.once]

private theorem piecesLanguage_append (ps qs : List Piece) :
    piecesLanguage (ps ++ qs) = piecesLanguage ps * piecesLanguage qs := by
  induction ps with
  | nil => exact (one_mul _).symm
  | cons p ps ih => rw [List.cons_append, piecesLanguage, piecesLanguage, ih, mul_assoc]

private theorem mem_mark {on : Bool} {c : Nat} {w : List Nat} :
    w ∈ piecesLanguage (if on then [⟨.literal c, .once⟩] else []) ↔ w = if on then [c] else [] := by
  cases on with
  | false => exact Iff.rfl
  | true =>
    rw [if_pos rfl, if_pos rfl, piecesLanguage, piecesLanguage, mul_one, piece_once_language]
    exact Iff.rfl

private theorem mem_anchored {r : Regex} {atStart atEnd : Bool} {w : List Nat} :
    w ∈ (r.anchored atStart atEnd).language ↔ ∃ u ∈ r.language,
      w = (if atStart then [startMark] else []) ++ u ++ if atEnd then [endMark] else [] := by
  rw [Regex.anchored, Regex.language, branchesLanguage, branchesLanguage, add_zero, Branch.language,
    piecesLanguage_append, piecesLanguage, piece_once_language, Atom.language]
  constructor
  · intro inside
    obtain ⟨front, first, rest, inside, same⟩ := Language.mem_mul.mp inside
    obtain ⟨u, inside, back, last, more⟩ := Language.mem_mul.mp inside
    refine ⟨u, inside, ?_⟩
    rw [← same, ← more, mem_mark.mp first, mem_mark.mp last, List.append_assoc]
  · intro given
    obtain ⟨u, inside, same⟩ := given
    rw [same, List.append_assoc]
    exact Language.append_mem_mul (mem_mark.mpr rfl)
      (Language.append_mem_mul inside (mem_mark.mpr rfl))

theorem unmarked_codepoints (text : String) : Unmarked (codepoints text) := by
  intro c member
  obtain ⟨char, _, same⟩ := List.mem_map.mp member
  have within := char_toNat_le_lastCodepoint char
  rw [← same]
  simp only [startMark, endMark, ne_eq]
  omega

variable {s u : List Nat}

private theorem infix_of_marked (plain : Unmarked u) (part : u <:+: startMark :: s ++ [endMark]) :
    u <:+: s := by
  rw [List.cons_append, List.infix_cons_iff, List.prefix_cons_iff, List.infix_concat_iff,
    List.suffix_concat_iff] at part
  obtain (same | ⟨v, same, _⟩) | (same | ⟨v, same, _⟩) | within := part
  · rw [same]
    exact List.nil_infix
  · exact absurd rfl (plain startMark (same ▸ List.mem_cons_self)).1
  · rw [same]
    exact List.nil_infix
  · exact absurd rfl (plain endMark (same ▸ List.mem_append_right _ List.mem_cons_self)).2
  · exact within

private theorem suffix_of_marked (plain : Unmarked u) (part : u <:+ startMark :: s) : u <:+ s := by
  obtain same | within := List.suffix_cons_iff.mp part
  · exact absurd rfl (plain startMark (same ▸ List.mem_cons_self)).1
  · exact within

private theorem prefix_of_marked (plain : Unmarked u) (part : u <+: s ++ [endMark]) : u <+: s := by
  obtain same | within := List.prefix_concat_iff.mp part
  · exact absurd rfl (plain endMark (same ▸ List.mem_append_right _ List.mem_cons_self)).2
  · exact within

private theorem nothing_before_start (plain : Unmarked s) {before v : List Nat}
    (same : startMark :: s ++ [endMark] = before ++ startMark :: v) : before = [] := by
  cases before with
  | nil => rfl
  | cons c before =>
    simp only [List.cons_append, List.cons.injEq] at same
    have member : startMark ∈ s ++ [endMark] := same.2 ▸ List.mem_append_right _ List.mem_cons_self
    obtain member | member := List.mem_append.mp member
    · exact absurd rfl (plain startMark member).1
    · cases List.mem_singleton.mp member

private theorem nothing_after_end (plain : Unmarked s) {after v : List Nat}
    (same : startMark :: s ++ [endMark] = v ++ [endMark] ++ after) : after = [] := by
  obtain none | ⟨after, c, more⟩ := List.eq_nil_or_concat after
  · exact none
  · rw [more, List.concat_eq_append, ← List.append_assoc] at same
    have member : endMark ∈ startMark :: s :=
      List.append_inj_left' same rfl ▸ List.mem_append_left _ (List.mem_append_right _ List.mem_cons_self)
    obtain member | member := List.mem_cons.mp member
    · cases member
    · exact absurd rfl (plain endMark member).2

variable {r : Regex} {p : Program} {limit : Nat}

private theorem matches_anchored_iff (free : r.MarkFree) (ordered : r.Ordered) {atStart atEnd : Bool}
    (fits : (r.anchored atStart atEnd).compile .xpath limit = .ok p) (text : String) :
    (Matcher.mk text .xpath p).matchesCodepoints s = true ↔
      ∃ u ∈ r.language, ∃ before after, startMark :: s ++ [endMark] = before ++
        ((if atStart then [startMark] else []) ++ u ++ if atEnd then [endMark] else []) ++ after := by
  change ((Machine.ofSize p.size).accepts p (startMark :: s ++ [endMark])).1 = true ↔ _
  rw [accepts_xpath_iff (ordered.anchored atStart atEnd) fits, merged_anchored free]
  constructor
  · intro given
    obtain ⟨before, w, after, same, inside⟩ := given
    obtain ⟨u, inside, more⟩ := mem_anchored.mp inside
    exact ⟨u, inside, before, after, more ▸ same⟩
  · intro given
    obtain ⟨u, inside, before, after, same⟩ := given
    exact ⟨before, _, after, same, mem_anchored.mpr ⟨u, inside, rfl⟩⟩

theorem matches_iff_part (free : r.MarkFree) (ordered : r.Ordered)
    (fits : r.compile .xpath limit = .ok p) (text : String) :
    (Matcher.mk text .xpath p).matchesCodepoints s = true ↔ ∃ u, u <:+: s ∧ u ∈ r.language := by
  change ((Machine.ofSize p.size).accepts p (startMark :: s ++ [endMark])).1 = true ↔ _
  rw [accepts_xpath_iff ordered fits, r.merged_eq free]
  constructor
  · intro given
    obtain ⟨before, u, after, same, inside⟩ := given
    exact ⟨u, infix_of_marked (r.unmarked free u inside) ⟨before, after, same.symm⟩, inside⟩
  · intro given
    obtain ⟨u, ⟨before, after, same⟩, inside⟩ := given
    refine ⟨startMark :: before, u, after ++ [endMark], ?_, inside⟩
    rw [← same]
    simp

private theorem matches_anchored_iff_mem (free : r.MarkFree) (ordered : r.Ordered) (plain : Unmarked s)
    (fits : (r.anchored true true).compile .xpath limit = .ok p) (text : String) :
    (Matcher.mk text .xpath p).matchesCodepoints s = true ↔ s ∈ r.language := by
  rw [matches_anchored_iff free ordered fits]
  constructor
  · intro given
    obtain ⟨u, inside, before, after, same⟩ := given
    cases nothing_before_start (v := u ++ endMark :: after) plain (by simpa using same)
    cases nothing_after_end (v := startMark :: u) plain (by simpa using same)
    have same : s = u := by simpa using same
    rw [same]
    exact inside
  · intro inside
    exact ⟨s, inside, [], [], by simp⟩

private theorem matches_anchored_iff_prefix (free : r.MarkFree) (ordered : r.Ordered) (plain : Unmarked s)
    (fits : (r.anchored true false).compile .xpath limit = .ok p) (text : String) :
    (Matcher.mk text .xpath p).matchesCodepoints s = true ↔ ∃ u, u <+: s ∧ u ∈ r.language := by
  rw [matches_anchored_iff free ordered fits]
  constructor
  · intro given
    obtain ⟨u, inside, before, after, same⟩ := given
    cases nothing_before_start (v := u ++ after) plain (by simpa using same)
    have same : s ++ [endMark] = u ++ after := by simpa using same
    exact ⟨u, prefix_of_marked (r.unmarked free u inside) ⟨after, same.symm⟩, inside⟩
  · intro given
    obtain ⟨u, ⟨after, same⟩, inside⟩ := given
    exact ⟨u, inside, [], after ++ [endMark], by simp [← same]⟩

private theorem matches_anchored_iff_suffix (free : r.MarkFree) (ordered : r.Ordered) (plain : Unmarked s)
    (fits : (r.anchored false true).compile .xpath limit = .ok p) (text : String) :
    (Matcher.mk text .xpath p).matchesCodepoints s = true ↔ ∃ u, u <:+ s ∧ u ∈ r.language := by
  rw [matches_anchored_iff free ordered fits]
  constructor
  · intro given
    obtain ⟨u, inside, before, after, same⟩ := given
    cases nothing_after_end (v := before ++ u) plain (by simpa using same)
    have same : startMark :: s = before ++ u :=
      List.append_inj_left' (by simpa using same : startMark :: s ++ [endMark] = _) rfl
    exact ⟨u, suffix_of_marked (r.unmarked free u inside) ⟨before, same.symm⟩, inside⟩
  · intro given
    obtain ⟨u, ⟨before, same⟩, inside⟩ := given
    exact ⟨u, inside, startMark :: before, [], by simp [← same]⟩

/-- An XPath matcher looks for a part of its subject that the program of the schema dialect takes as a
whole, that is, for a word of the expression. Anchors around the expression say where the part has to
be. -/
theorem xpath_matches_part_of_subject (free : r.MarkFree) (ordered : r.Ordered) (plain : Unmarked s)
    (fits : r.compile .xsd limit = .ok p) (text : String) :
    let takes (u : List Nat) : Prop := ((Machine.ofSize p.size).accepts p u).1 = true
    (∀ u, takes u ↔ u ∈ r.language) ∧
    (∀ (size : Nat) q, r.compile .xpath size = .ok q →
      ((Matcher.mk text .xpath q).matchesCodepoints s = true ↔ ∃ u, u <:+: s ∧ takes u)) ∧
    (∀ (size : Nat) q, (r.anchored true true).compile .xpath size = .ok q →
      ((Matcher.mk text .xpath q).matchesCodepoints s = true ↔ takes s)) ∧
    (∀ (size : Nat) q, (r.anchored true false).compile .xpath size = .ok q →
      ((Matcher.mk text .xpath q).matchesCodepoints s = true ↔ ∃ u, u <+: s ∧ takes u)) ∧
    (∀ (size : Nat) q, (r.anchored false true).compile .xpath size = .ok q →
      ((Matcher.mk text .xpath q).matchesCodepoints s = true ↔ ∃ u, u <:+ s ∧ takes u)) := by
  intro takes
  have taken (u : List Nat) : takes u ↔ u ∈ r.language := by
    change ((Machine.ofSize p.size).accepts p u).1 = true ↔ _
    rw [accepts_schema_iff ordered fits, r.merged_eq free]
  refine ⟨taken, ?_⟩
  simp only [taken]
  exact ⟨fun _ _ compiled => matches_iff_part free ordered compiled text,
    fun _ _ compiled => matches_anchored_iff_mem free ordered plain compiled text,
    fun _ _ compiled => matches_anchored_iff_prefix free ordered plain compiled text,
    fun _ _ compiled => matches_anchored_iff_suffix free ordered plain compiled text⟩

theorem xpath_matches_part_of_word :
    let r : Regex := ⟨[⟨[⟨.literal 97, ⟨1, none⟩⟩]⟩, ⟨[]⟩]⟩
    let s := codepoints "aab"
    r.MarkFree ∧ r.Ordered ∧ Unmarked s ∧ ∃ p q, r.compile .xsd 16 = .ok p ∧
      (r.anchored true false).compile .xpath 16 = .ok q ∧
      ((Matcher.mk "^(a+|)" .xpath q).matchesCodepoints s = true ↔
        ∃ u, u <+: s ∧ ((Machine.ofSize p.size).accepts p u).1 = true) := by
  intro r s
  have free : r.MarkFree := by
    simp [r, Regex.MarkFree, Regex.Every, BranchesEvery, Branch.Every, PiecesEvery, Piece.Every,
      Atom.Every, Piece.NoMark, startMark, endMark, lastCodepoint]
  have ordered : r.Ordered := by
    simp [r, Regex.Ordered, Regex.Every, BranchesEvery, Branch.Every, PiecesEvery, Piece.Every,
      Atom.Every, Quantifier.Ordered]
  have fits : r.compile .xsd 16 = .ok _ := compile_of_fits r .xsd (by decide)
  have compiled : (r.anchored true false).compile .xpath 16 = .ok _ :=
    compile_of_fits (r.anchored true false) .xpath (by decide)
  exact ⟨free, ordered, unmarked_codepoints "aab", _, _, fits, compiled,
    (xpath_matches_part_of_subject free ordered (unmarked_codepoints "aab") fits
      "^(a+|)").2.2.2.1 16 _ compiled⟩

end SchemaRegex

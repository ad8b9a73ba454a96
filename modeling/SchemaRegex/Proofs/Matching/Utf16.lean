import Mathlib.Data.List.Chain
import SchemaRegex.Matcher

/-!
# Subjects in 16-bit units

Whatever the units, there is one sequence of codepoints that they spell, and a matcher that is given
the units finds what it finds in this sequence (`matches_what_units_spell`). A surrogate without its
other half spells itself, so a high surrogate is never in front of a low one.
-/

namespace SchemaRegex

namespace Text

/-- The units are how the codepoints are written, among which no low surrogate follows a high one. -/
structure Spells (units cs : List Nat) : Prop where
  codespace : ∀ c ∈ cs, c ≤ lastCodepoint
  noPair : cs.IsChain fun c d => ¬ (isHighSurrogate c = true ∧ isLowSurrogate d = true)
  written : cs.flatMap utf16Units = units

variable {c d high low u : Nat} {cs units : List Nat}

private theorem isHighSurrogate_iff : isHighSurrogate u = true ↔ 0xD800 ≤ u ∧ u ≤ 0xDBFF := by
  simp [isHighSurrogate]

private theorem isLowSurrogate_iff : isLowSurrogate u = true ↔ 0xDC00 ≤ u ∧ u ≤ 0xDFFF := by
  simp [isLowSurrogate]

private theorem utf16Units_of_lt (small : c < 0x10000) : utf16Units c = [c] := if_pos small

private theorem pairValue_bounds (first : isHighSurrogate high = true) (second : isLowSurrogate low = true) :
    0x10000 ≤ pairValue high low ∧ pairValue high low ≤ lastCodepoint := by
  rw [isHighSurrogate_iff] at first
  rw [isLowSurrogate_iff] at second
  unfold pairValue lastCodepoint
  omega

private theorem utf16Units_pairValue (first : isHighSurrogate high = true)
    (second : isLowSurrogate low = true) : utf16Units (pairValue high low) = [high, low] := by
  have large := (pairValue_bounds first second).1
  rw [isHighSurrogate_iff] at first
  rw [isLowSurrogate_iff] at second
  have upper : 0xD800 + (pairValue high low - 0x10000) / 0x400 = high := by
    unfold pairValue
    omega
  have lower : 0xDC00 + (pairValue high low - 0x10000) % 0x400 = low := by
    unfold pairValue
    omega
  rw [utf16Units, if_neg (Nat.not_lt.mpr large), upper, lower]

private theorem exists_pair (large : 0x10000 ≤ c) (codespace : c ≤ lastCodepoint) :
    ∃ high low, isHighSurrogate high = true ∧ isLowSurrogate low = true ∧
      utf16Units c = [high, low] ∧ pairValue high low = c := by
  unfold lastCodepoint at codespace
  refine ⟨0xD800 + (c - 0x10000) / 0x400, 0xDC00 + (c - 0x10000) % 0x400, ?_, ?_, ?_, ?_⟩
  · rw [isHighSurrogate_iff]
    omega
  · rw [isLowSurrogate_iff]
    omega
  · exact if_neg (Nat.not_lt.mpr large)
  · unfold pairValue
    omega

private theorem ofUtf16_pair (first : isHighSurrogate high = true) (second : isLowSurrogate low = true)
    (units : List Nat) : ofUtf16 (high :: low :: units) = pairValue high low :: ofUtf16 units := by
  rw [ofUtf16, first, second]
  rfl

private theorem ofUtf16_alone
    (alone : ∀ d ∈ units.head?, ¬ (isHighSurrogate c = true ∧ isLowSurrogate d = true)) :
    ofUtf16 (c :: units) = c :: ofUtf16 units := by
  cases units with
  | nil => rfl
  | cons d units =>
    rw [ofUtf16, if_neg]
    rw [Bool.and_eq_true]
    exact alone d rfl

/-- Written codepoints start with a low surrogate only if that is the first of them. -/
theorem head_of_written (codespace : ∀ c ∈ cs, c ≤ lastCodepoint)
    (start : u ∈ (cs.flatMap utf16Units).head?) (second : isLowSurrogate u = true) :
    u ∈ cs.head? := by
  cases cs with
  | nil => exact start
  | cons c cs =>
    rw [List.flatMap_cons] at start
    by_cases small : c < 0x10000
    · rw [utf16Units_of_lt small] at start
      exact start
    · obtain ⟨high, low, first, _, written, _⟩ :=
        exists_pair (Nat.le_of_not_lt small) (codespace c List.mem_cons_self)
      rw [written] at start
      cases start
      rw [isHighSurrogate_iff] at first
      rw [isLowSurrogate_iff] at second
      omega

private theorem Spells.eq_ofUtf16 (spells : Spells units cs) : cs = ofUtf16 units := by
  obtain ⟨codespace, noPair, written⟩ := spells
  subst written
  induction cs with
  | nil => rfl
  | cons c cs ih =>
    obtain ⟨next, noPair⟩ := List.isChain_cons.mp noPair
    have others : ∀ d ∈ cs, d ≤ lastCodepoint := fun d member =>
      codespace d (List.mem_cons_of_mem c member)
    have rest := ih others noPair
    rw [List.flatMap_cons]
    by_cases small : c < 0x10000
    · -- The unit might be a high surrogate, but what is written behind it is no low one.
      have alone : ∀ d ∈ (cs.flatMap utf16Units).head?,
          ¬ (isHighSurrogate c = true ∧ isLowSurrogate d = true) := by
        intro d start pair
        exact next d (head_of_written others start pair.2) pair
      rw [utf16Units_of_lt small, List.singleton_append, ofUtf16_alone alone, ← rest]
    · obtain ⟨high, low, first, second, written, value⟩ :=
        exists_pair (Nat.le_of_not_lt small) (codespace c List.mem_cons_self)
      rw [written, List.cons_append, List.singleton_append, ofUtf16_pair first second, value, ← rest]

/-- What is read starts with a low surrogate only if the units do. -/
theorem head_of_read (start : d ∈ (ofUtf16 units).head?) (second : isLowSurrogate d = true) :
    d ∈ units.head? := by
  fun_cases ofUtf16 units with
  | case1 high low units pair =>
    rw [ofUtf16, if_pos pair] at start
    have same : pairValue high low = d := Option.some.inj start
    obtain ⟨first, other⟩ := Bool.and_eq_true_iff.mp pair
    have large := (pairValue_bounds first other).1
    rw [isLowSurrogate_iff] at second
    omega
  | case2 high low units pair =>
    rw [ofUtf16, if_neg pair] at start
    exact start
  | case3 units short =>
    rw [ofUtf16] at start
    · exact start
    · exact short

private theorem spells_ofUtf16 (words : ∀ u ∈ units, u < 0x10000) : Spells units (ofUtf16 units) := by
  fun_induction ofUtf16 units with
  | case1 high low units pair ih =>
    obtain ⟨first, second⟩ := Bool.and_eq_true_iff.mp pair
    obtain ⟨codespace, noPair, written⟩ := ih fun u member => words u (by simp [member])
    obtain ⟨large, bound⟩ := pairValue_bounds first second
    refine ⟨?_, ?_, ?_⟩
    · exact List.forall_mem_cons.mpr ⟨bound, codespace⟩
    · refine List.isChain_cons.mpr ⟨fun d _ same => ?_, noPair⟩
      have high := isHighSurrogate_iff.mp same.1
      omega
    · rw [List.flatMap_cons, utf16Units_pairValue first second, written]
      rfl
  | case2 high low units pair ih =>
    obtain ⟨codespace, noPair, written⟩ := ih fun u member => words u (List.mem_cons_of_mem high member)
    have small := words high List.mem_cons_self
    refine ⟨?_, ?_, ?_⟩
    · refine List.forall_mem_cons.mpr ⟨?_, codespace⟩
      unfold lastCodepoint
      omega
    · refine List.isChain_cons.mpr ⟨fun d start same => ?_, noPair⟩
      cases head_of_read start same.2
      exact pair (Bool.and_eq_true_iff.mpr same)
    · rw [List.flatMap_cons, utf16Units_of_lt small, written]
      rfl
  | case3 units short =>
    match units, short with
    | [], _ => exact ⟨by simp, .nil, rfl⟩
    | [u], _ =>
      have small := words u List.mem_cons_self
      refine ⟨?_, List.isChain_singleton u, ?_⟩
      · rw [List.forall_mem_singleton]
        unfold lastCodepoint
        omega
      · rw [List.flatMap_singleton, utf16Units_of_lt small]
    | high :: low :: units, short => exact absurd rfl (short high low units)

private theorem spells_iff (words : ∀ u ∈ units, u < 0x10000) : Spells units cs ↔ cs = ofUtf16 units := by
  constructor
  · exact Spells.eq_ofUtf16
  · intro same
    rw [same]
    exact spells_ofUtf16 words

private theorem spells_codepoints (text : String) :
    Spells ((codepoints text).flatMap utf16Units) (codepoints text) := by
  have char {c : Nat} (member : c ∈ codepoints text) : ∃ a : Char, a.toNat = c := by
    obtain ⟨a, _, same⟩ := List.mem_map.mp member
    exact ⟨a, same⟩
  refine ⟨?_, ?_, rfl⟩
  · intro c member
    obtain ⟨a, same⟩ := char member
    exact same ▸ char_toNat_le_lastCodepoint a
  · apply List.isChain_iff_forall_rel_of_append_cons_cons.mpr
    intro c d front back parts pair
    obtain ⟨a, same⟩ := char (c := c) (by rw [parts]; simp)
    have valid : a.toNat < 0xD800 ∨ 0xDFFF < a.toNat ∧ a.toNat < 0x110000 := a.valid
    have high := isHighSurrogate_iff.mp pair.1
    omega

end Text

/-- A text, its codepoints and its units are matched alike. Any units of 16 bits spell exactly one
sequence of codepoints, and are matched like that. -/
theorem matches_what_units_spell (m : Matcher) :
    (∀ s : String, m.matchesCodepoints (codepoints s) = m.matchesText s ∧
        m.matchesUtf16 ((codepoints s).flatMap Text.utf16Units) = m.matchesText s) ∧
      ∀ units : List UInt16, ∃ cs, (∀ ds, Text.Spells (units.map UInt16.toNat) ds ↔ ds = cs) ∧
        m.matchesUtf16 (units.map UInt16.toNat) = m.matchesCodepoints cs := by
  constructor
  · intro s
    refine ⟨rfl, ?_⟩
    rw [Matcher.matchesUtf16, ← (Text.spells_codepoints s).eq_ofUtf16]
    rfl
  · intro units
    have words : ∀ u ∈ units.map UInt16.toNat, u < 0x10000 := by
      intro u member
      obtain ⟨w, _, same⟩ := List.mem_map.mp member
      exact same ▸ w.toNat_lt
    exact ⟨Text.ofUtf16 (units.map UInt16.toNat), fun ds => Text.spells_iff words, rfl⟩

end SchemaRegex

import SchemaRegex.Proofs.Pattern.CommonPatterns
import SchemaRegex.Proofs.Pattern.InheritedByGroups

/-!
# Quantifiers written and read

The text of a quantifier behind an atom is read as that quantifier, as long as its bounds are in order and
fit in 32 bits (`quantifier_text_round_trip`). The text is one of those that the grammar allows, and no
text stands for two trees. So it does not matter that the reader tries a pair of bounds first and comes
back to the digits of the first one for the other forms.
-/

namespace SchemaRegex.Pattern

open Reader

variable {d : Dialect} {n : Nat} {q : Quantifier}

private theorem bound_numeral (fits : n ≤ Text.maxWord) : Bound (Text.numeral 10 n) n where
  nonempty := Text.numeral_ne_nil 10 n
  digits _ member :=
    Text.isSome_digitValue?_ten_iff.mp (Text.digit_of_mem_numeral (by decide) (by decide) member)
  value := (Text.valueOf_numeral (by decide) (by decide) n).symm
  fits := Nat.lt_succ_of_le fits

/-- Of the forms of a text the first that applies is written, and each stands for its bounds. -/
theorem greedyText_text (fits : Fits q) : GreedyText q.text q := by
  obtain ⟨least, most⟩ := fits
  unfold Quantifier.text
  split
  · exact .optional
  · exact .star
  · exact .plus
  · rename_i min _ _
    have atLeast := GreedyText.counted (.atLeast (bound_numeral least))
    simpa using atLeast
  · rename_i min max _
    obtain ⟨ordered, small⟩ := most max rfl
    split
    · rename_i same
      subst same
      exact .counted (.exactly (bound_numeral least))
    · have between := GreedyText.counted (.between (bound_numeral least) (bound_numeral small) ordered)
      simpa using between

private theorem once_fits : Fits .once := ⟨by decide, fun max same => by cases same; decide⟩

def IsAtom (s : Settings) (text : String) (x : Atom) : Prop :=
  Takes (atom s (classExpr s s.nestLimit) (groupReader s s.nestLimit)) text.toList x []

def single (x : Atom) (q : Quantifier) : Regex := ⟨[⟨[⟨x, q⟩]⟩]⟩

private theorem isAtom_iff {s : Settings} {text : String} {x : Atom} :
    IsAtom s text x ↔ DerivesAtom s.dialect s.nestLimit text.toList x := by
  constructor
  · intro takes
    obtain ⟨w, same, derives⟩ := derivesAtom_of_takes_atom takes
    rw [List.append_nil] at same
    exact same ▸ derives
  · intro derives
    have takes := takes_atom (fun _ _ _ _ _ => takes_regexp) derives []
    rw [List.append_nil] at takes
    exact takes

private theorem derivesRegex_single {w : List Char} {x : Atom} :
    DerivesRegex d n w (single x q) ↔ DerivesPiece d n w ⟨x, q⟩ := by
  constructor
  · intro regex
    cases regex with
    | branch only =>
      cases only with
      | piece first others =>
        cases others
        rw [List.append_nil]
        exact first
    | alternative _ others => cases others
  · intro piece
    have branch := DerivesBranch.piece piece .empty
    rw [List.append_nil] at branch
    exact .branch branch

private theorem DerivesPiece.fits {w : List Char} {x : Atom} (piece : DerivesPiece d n w ⟨x, q⟩) :
    Fits q := by
  cases piece with
  | once => exact once_fits
  | quantified _ text => exact text.fits

/-- An atom by itself is read as one occurrence of it. With the text of a quantifier behind it, it is read
as the atom with exactly that quantifier, unless the bounds are out of order or do not fit in 32 bits. -/
theorem quantifier_text_round_trip {s : Settings} {text : String} {x : Atom} (atom : IsAtom s text x)
    (q : Quantifier) :
    parse s text = .ok (single x .once) ∧
      (parse s (text ++ toString q) = .ok (single x q) ↔ Fits q) := by
  have derives := isAtom_iff.mp atom
  rw [parse_eq_ok, parse_eq_ok, derivesRegex_single, derivesRegex_single]
  refine ⟨.once derives, DerivesPiece.fits, fun fits => ?_⟩
  have piece := DerivesPiece.quantified derives (.greedy (greedyText_text fits))
  rw [String.toList_append]
  exact (String.toList_ofList (l := q.text)).symm ▸ piece

def letterOrRange : PatternSyntax :=
  .leaf (.character 'a') .absent <| .bar <|
    .leaf (.classExpr (.plain ⟨false, [.range ['b'] 'b' ['d'] 'd']⟩)) .absent .empty

private theorem isAtom_letterOrRange :
    IsAtom { dialect := .xpath, nestLimit := 2 } "(a|[b-d])" (.group letterOrRange.regex) := by
  obtain ⟨_, formed, _, _⟩ := (starredGroup_derives .xpath).wellFormed
  have inside : DerivesRegex .xpath 1 letterOrRange.text letterOrRange.regex :=
    PatternSyntax.derives formed (by decide)
  have text : "(a|[b-d])".toList = '(' :: letterOrRange.text ++ [')'] := by decide +kernel
  rw [isAtom_iff, text]
  exact .group inside

/-- `(a|[b-d]){0,4294967295}` has the largest bound there is, behind the bound of `?` and `*`. -/
theorem quantifier_text_round_trip_largest :
    IsAtom { dialect := .xpath, nestLimit := 2 } "(a|[b-d])" (.group letterOrRange.regex) ∧
      parse { dialect := .xpath, nestLimit := 2 } "(a|[b-d])" =
        .ok (single (.group letterOrRange.regex) .once) ∧
      toString (⟨0, some 4294967295⟩ : Quantifier) = "\x7b0,4294967295\x7d" ∧
      parse { dialect := .xpath, nestLimit := 2 } "(a|[b-d])\x7b0,4294967295\x7d" =
        .ok (single (.group letterOrRange.regex) ⟨0, some 4294967295⟩) := by
  have written : toString (⟨0, some 4294967295⟩ : Quantifier) = "\x7b0,4294967295\x7d" := by
    decide +kernel
  have fits : Fits ⟨0, some 4294967295⟩ :=
    ⟨by decide, fun max same => by cases same; decide⟩
  obtain ⟨alone, quantified⟩ := quantifier_text_round_trip isAtom_letterOrRange ⟨0, some 4294967295⟩
  rw [written] at quantified
  exact ⟨isAtom_letterOrRange, alone, written, quantified.mpr fits⟩

end SchemaRegex.Pattern

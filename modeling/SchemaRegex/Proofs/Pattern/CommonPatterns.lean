import SchemaRegex.Proofs.Pattern.NestingLimit
import SchemaRegex.Proofs.Pattern.PatternSyntax

/-!
# Patterns of both dialects

Each dialect has some features that the other has not, or reads in another way. A tree of the grammar
that uses none of the features of its own dialect is one in the other dialect too, with the same text. So
what is read from such a pattern does not depend on the dialect (`dialects_agree`).
-/

namespace SchemaRegex.Pattern

inductive Feature where
  | anchor
  | escapedDollar
  | reluctantMark
  | plainGroup
  /-- `^` or `$` for itself, outside class expressions and without a backslash. -/
  | anchorCharacter
  | unknownBlock
deriving DecidableEq

def Feature.OwnedBy (d : Dialect) : Feature → Prop
  | anchor | escapedDollar | reluctantMark | plainGroup => d = .xpath
  | anchorCharacter | unknownBlock => d = .xsd

def NamesUnknownBlock (w : List Char) : Prop :=
  ∃ letter name, (letter = 'p' ∨ letter = 'P') ∧
    w = '\\' :: letter :: '{' :: 'I' :: 's' :: name ++ ['}'] ∧
    Unicode.block? (String.ofList name) = none

def ClassItem.Uses (f : Feature) : ClassItem → Prop
  | single w _ => f = .escapedDollar ∧ w = ['\\', '$']
  | range u _ w _ => f = .escapedDollar ∧ (u = ['\\', '$'] ∨ w = ['\\', '$'])
  | escape w _ => f = .unknownBlock ∧ NamesUnknownBlock w

def ClassGroup.Uses (f : Feature) (g : ClassGroup) : Prop := ∃ item ∈ g.items, item.Uses f

def ClassSyntax.Uses (f : Feature) : ClassSyntax → Prop
  | plain group => group.Uses f
  | minus group except => group.Uses f ∨ except.Uses f

def LeafSyntax.Uses (f : Feature) : LeafSyntax → Prop
  | character c => f = .anchorCharacter ∧ (c = '^' ∨ c = '$')
  | charEscape w _ => f = .escapedDollar ∧ w = ['\\', '$']
  | classEscape w _ => f = .unknownBlock ∧ NamesUnknownBlock w
  | classExpr e => e.Uses f
  | wildcard => False
  | startAnchor | endAnchor => f = .anchor

def QuantifierSyntax.Uses (f : Feature) : QuantifierSyntax → Prop
  | reluctant _ _ => f = .reluctantMark
  | absent | greedy _ _ => False

def PatternSyntax.Uses (f : Feature) : PatternSyntax → Prop
  | empty => False
  | leaf atom quantifier rest => atom.Uses f ∨ quantifier.Uses f ∨ rest.Uses f
  | group marked inside quantifier rest =>
    (f = .plainGroup ∧ marked = true) ∨ inside.Uses f ∨ quantifier.Uses f ∨ rest.Uses f
  | bar rest => rest.Uses f

variable {d d' : Dialect}

private theorem mem_metacharacters_iff {c : Char} :
    c ∈ d.metacharacters ↔
      c ∈ Dialect.xsd.metacharacters ∨ d = .xpath ∧ (c = '^' ∨ c = '$') := by
  cases d with
  | xsd => simp
  | xpath =>
    rw [metacharacters_xpath, metacharacters_xsd]
    simp only [List.mem_cons, List.not_mem_nil, or_false, true_and, or_assoc]

private theorem mem_escapable_iff {c : Char} :
    c ∈ d.escapable ↔ c ∈ Dialect.xsd.escapable ∨ d = .xpath ∧ c = '$' := by
  cases d with
  | xsd => simp
  | xpath =>
    rw [escapable_xpath, escapable_xsd]
    simp only [List.mem_cons, List.not_mem_nil, or_false, true_and, or_assoc]

private theorem CharEscape.change_dialect {w : List Char} {c : Char} (escape : CharEscape d w c)
    (common : Feature.escapedDollar.OwnedBy d → w ≠ ['\\', '$']) : CharEscape d' w c := by
  cases escape with
  | newline => exact .newline
  | carriageReturn => exact .carriageReturn
  | tab => exact .tab
  | itself escapable =>
    obtain shared | ⟨xpath, dollar⟩ := mem_escapable_iff.mp escapable
    · exact .itself (mem_escapable_iff.mpr (.inl shared))
    · subst xpath dollar
      exact absurd rfl (common rfl)

private theorem ClassEscape.change_dialect {w : List Char} {set : CodepointSet} (escape : ClassEscape d w set)
    (common : Feature.unknownBlock.OwnedBy d → ¬ NamesUnknownBlock w) : ClassEscape d' w set := by
  have known {u : List Char} {set : CodepointSet} {letter : Char} (text : PropertyText d u set)
      (form : letter = 'p' ∨ letter = 'P') (same : w = '\\' :: letter :: '{' :: u ++ ['}']) :
      PropertyText d' u set := by
    cases text with
    | category member => exact .category member
    | block nonempty letters known => exact .block nonempty letters known
    | unknownBlock lenient _ _ unknown =>
      subst lenient
      exact absurd ⟨letter, _, form, same, unknown⟩ (common rfl)
  cases escape with
  | letter meaning => exact .letter meaning
  | property text => exact .property (known text (.inl rfl) rfl)
  | complement text => exact .complement (known text (.inr rfl) rfl)

private theorem ClassCharText.change_dialect {w : List Char} {c : Char} (text : ClassCharText d w c)
    (common : Feature.escapedDollar.OwnedBy d → w ≠ ['\\', '$']) : ClassCharText d' w c := by
  cases text with
  | escaped escape => exact .escaped (escape.change_dialect common)
  | unescaped plain => exact .unescaped plain

private theorem ClassItem.change_dialect {item : ClassItem} (formed : item.WellFormed d)
    (common : ∀ f : Feature, f.OwnedBy d → ¬ item.Uses f) : item.WellFormed d' := by
  cases item with
  | single w c =>
    exact ClassCharText.change_dialect formed fun owns same => common _ owns ⟨rfl, same⟩
  | range u a w b =>
    obtain ⟨first, last, firstNoHyphen, lastNoHyphen, ordered⟩ := formed
    exact ⟨first.change_dialect fun owns same => common _ owns ⟨rfl, .inl same⟩,
      last.change_dialect fun owns same => common _ owns ⟨rfl, .inr same⟩, firstNoHyphen, lastNoHyphen,
      ordered⟩
  | escape w set =>
    exact ClassEscape.change_dialect formed fun owns unknown => common _ owns ⟨rfl, unknown⟩

private theorem ClassGroup.change_dialect {g : ClassGroup} {behind : List Char}
    (formed : g.WellFormed d behind)
    (common : ∀ f : Feature, f.OwnedBy d → ¬ g.Uses f) : g.WellFormed d' behind where
  nonempty := formed.nonempty
  items := fun item member => ClassItem.change_dialect (formed.items item member)
    fun f owns uses => common f owns ⟨item, member, uses⟩
  fit := formed.fit
  noCircumflex := formed.noCircumflex

private theorem ClassSyntax.change_dialect {e : ClassSyntax} (formed : e.WellFormed d)
    (common : ∀ f : Feature, f.OwnedBy d → ¬ e.Uses f) : e.WellFormed d' := by
  induction e with
  | plain group => exact ClassGroup.change_dialect formed common
  | minus group except ih =>
    obtain ⟨groupFormed, exceptFormed⟩ := formed
    exact ⟨ClassGroup.change_dialect groupFormed fun f owns uses => common f owns (.inl uses),
      ih exceptFormed fun f owns uses => common f owns (.inr uses)⟩

private theorem LeafSyntax.change_dialect {l : LeafSyntax} (formed : l.WellFormed d)
    (common : ∀ f : Feature, f.OwnedBy d → ¬ l.Uses f) : l.WellFormed d' := by
  cases l with
  | character c =>
    intro special
    obtain shared | ⟨_, anchor⟩ := mem_metacharacters_iff.mp special
    · exact formed (mem_metacharacters_of_xsd shared)
    · cases d with
      | xsd => exact common .anchorCharacter rfl ⟨rfl, anchor⟩
      | xpath => exact formed (mem_metacharacters_iff.mpr (.inr ⟨rfl, anchor⟩))
  | charEscape w c =>
    exact CharEscape.change_dialect formed fun owns same => common _ owns ⟨rfl, same⟩
  | classEscape w set =>
    exact ClassEscape.change_dialect formed fun owns unknown => common _ owns ⟨rfl, unknown⟩
  | classExpr e => exact ClassSyntax.change_dialect formed common
  | wildcard => trivial
  | startAnchor =>
    cases formed
    exact absurd rfl (common .anchor rfl)
  | endAnchor =>
    cases formed
    exact absurd rfl (common .anchor rfl)

private theorem QuantifierSyntax.change_dialect {q : QuantifierSyntax} (formed : q.WellFormed d)
    (common : ∀ f : Feature, f.OwnedBy d → ¬ q.Uses f) : q.WellFormed d' := by
  cases q with
  | absent => trivial
  | greedy w q => exact formed
  | reluctant w q =>
    obtain ⟨xpath, _⟩ := formed
    subst xpath
    exact absurd rfl (common .reluctantMark rfl)

/-- A tree without features of its own dialect is one of any dialect. -/
theorem PatternSyntax.change_dialect {e : PatternSyntax} (formed : e.WellFormed d)
    (common : ∀ f : Feature, f.OwnedBy d → ¬ e.Uses f) : e.WellFormed d' := by
  induction e with
  | empty => trivial
  | leaf atom quantifier rest ih =>
    obtain ⟨atomFormed, quantifierFormed, restFormed⟩ := formed
    exact ⟨LeafSyntax.change_dialect atomFormed fun f owns uses => common f owns (.inl uses),
      QuantifierSyntax.change_dialect quantifierFormed
        fun f owns uses => common f owns (.inr (.inl uses)),
      ih restFormed fun f owns uses => common f owns (.inr (.inr uses))⟩
  | group marked inside quantifier rest ihInside ihRest =>
    obtain ⟨xpath, insideFormed, quantifierFormed, restFormed⟩ := formed
    refine ⟨fun plain => ?_, ?_, ?_, ?_⟩
    · have own := xpath plain
      subst own
      exact absurd (.inl ⟨rfl, plain⟩) (common .plainGroup rfl)
    · exact ihInside insideFormed fun f owns uses => common f owns (.inr (.inl uses))
    · exact QuantifierSyntax.change_dialect quantifierFormed
        fun f owns uses => common f owns (.inr (.inr (.inl uses)))
    · exact ihRest restFormed fun f owns uses => common f owns (.inr (.inr (.inr uses)))
  | bar rest ih => exact ih formed common

private theorem parse_of_common {n : Nat} {text : String} {r : Regex} {e : PatternSyntax}
    (derives : e.Derives d n text.toList r) (common : ∀ f : Feature, f.OwnedBy d → ¬ e.Uses f) :
    parse (limited d' n) text = .ok r :=
  parse_eq_ok_iff_tree.mpr ⟨e, PatternSyntax.change_dialect derives.wellFormed common, derives.depth,
    derives.text, derives.regex⟩

/-- A pattern is read exactly if it has a tree in its dialect. One that is read as a schema pattern is
read as the same expression in XPath, unless an anchor stands for itself or a block is not known. One
that is read in XPath is read as the same schema pattern, unless it has an anchor, an escaped dollar
sign, a reluctant quantifier or a group that is not counted. -/
theorem dialects_agree (n : Nat) (text : String) (r : Regex) :
    (∀ d, parse (limited d n) text = .ok r ↔ ∃ e : PatternSyntax, e.Derives d n text.toList r) ∧
    (∀ e : PatternSyntax, e.Derives .xsd n text.toList r →
      ¬ e.Uses .anchorCharacter → ¬ e.Uses .unknownBlock → parse (limited .xpath n) text = .ok r) ∧
    (∀ e : PatternSyntax, e.Derives .xpath n text.toList r →
      ¬ e.Uses .anchor → ¬ e.Uses .escapedDollar → ¬ e.Uses .reluctantMark → ¬ e.Uses .plainGroup →
        parse (limited .xsd n) text = .ok r) := by
  refine ⟨fun d => parse_eq_ok_iff_tree, fun e derives noCharacter noUnknown => ?_,
    fun e derives noAnchor noDollar noMark noPlain => ?_⟩
  · refine parse_of_common derives fun f owns => ?_
    cases f with
    | anchorCharacter => exact noCharacter
    | unknownBlock => exact noUnknown
    | anchor | escapedDollar | reluctantMark | plainGroup => cases owns
  · refine parse_of_common derives fun f owns => ?_
    cases f with
    | anchor => exact noAnchor
    | escapedDollar => exact noDollar
    | reluctantMark => exact noMark
    | plainGroup => exact noPlain
    | anchorCharacter | unknownBlock => cases owns

def starredGroup : PatternSyntax :=
  .group false
    (.leaf (.character 'a') .absent <| .bar <|
      .leaf (.classExpr (.plain ⟨false, [.range ['b'] 'b' ['d'] 'd']⟩)) .absent .empty)
    (.greedy ['*'] ⟨0, none⟩) .empty

theorem starredGroup_derives (d : Dialect) :
    starredGroup.Derives d 2 "(a|[b-d])*".toList starredGroup.regex := by
  have plain : 'a' ∉ d.metacharacters := by
    rw [mem_metacharacters_iff, metacharacters_xsd]
    simp
  have range : (ClassItem.range ['b'] 'b' ['d'] 'd').WellFormed d :=
    ⟨.unescaped (by decide), .unescaped (by decide), by decide, by decide, by decide⟩
  have group : (ClassGroup.mk false [.range ['b'] 'b' ['d'] 'd']).WellFormed d [']'] :=
    ⟨by simp, List.forall_mem_singleton.mpr range, ⟨fun single => (by cases single), trivial⟩,
      fun _ item head => by cases head; decide⟩
  have formed : starredGroup.WellFormed d :=
    ⟨fun marked => (by cases marked), ⟨plain, trivial, group, trivial, trivial⟩, .star, trivial⟩
  exact ⟨formed, by decide, by decide +kernel, rfl⟩

private theorem starredGroup_common (f : Feature) : ¬ starredGroup.Uses f := by
  simp [starredGroup, PatternSyntax.Uses, LeafSyntax.Uses, QuantifierSyntax.Uses, ClassSyntax.Uses,
    ClassGroup.Uses, ClassItem.Uses]

theorem dialects_agree_on_starredGroup :
    parse (limited .xpath 2) "(a|[b-d])*" = .ok starredGroup.regex ∧
      parse (limited .xsd 2) "(a|[b-d])*" = .ok starredGroup.regex := by
  obtain ⟨_, inXPath, inXsd⟩ := dialects_agree 2 "(a|[b-d])*" starredGroup.regex
  have common := starredGroup_common
  exact ⟨inXPath _ (starredGroup_derives .xsd) (common _) (common _),
    inXsd _ (starredGroup_derives .xpath) (common _) (common _) (common _) (common _)⟩

end SchemaRegex.Pattern

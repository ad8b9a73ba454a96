import SchemaRegex.Proofs.Pattern.OpenBrackets
import SchemaRegex.Proofs.Pattern.Violations

/-!
# What a broken rule looks like

Where a rule is broken, the text before and behind the place shows it (`Offence`). That is said without any
reader, by what is open at the place and by the texts that stand around it. Readers without brackets of
their own find a rule broken at such places only.
-/

namespace SchemaRegex.Pattern

open Reader

/-- What stands before a place and behind it shows that the rule is broken there. -/
inductive Offence (s : Settings) : Violation → List Char → List Char → Prop
  | quantifierOrder {x u w v : List Char} {n m : Nat} (outside : (opened x).Outside)
    (first : Bound u n) (second : Bound w m) (ends : ∀ c ∈ v.head?, ¬ ('0' ≤ c ∧ c ≤ '9'))
    (less : m < n) : Offence s .quantifierOrder (x ++ ['{']) (u ++ ',' :: w ++ v)
  | quantifierTooLarge {x y w v : List Char} (outside : (opened x).Outside)
    (front : y = [] ∨ ∃ u n, Bound u n ∧ y = u ++ [',']) (nonempty : w ≠ [])
    (digits : ∀ c ∈ w, '0' ≤ c ∧ c ≤ '9') (ends : ∀ c ∈ v.head?, ¬ ('0' ≤ c ∧ c ≤ '9'))
    (large : 4294967296 ≤ Text.valueOf 10 w) :
    Offence s .quantifierTooLarge (x ++ '{' :: y) (w ++ v)
  | rangeOrder {x u w v : List Char} {a b : Char} (inside : (opened x).Inside)
    (first : ClassCharText s.dialect u a) (last : ClassCharText s.dialect w b)
    (firstNoHyphen : u ≠ ['-']) (lastNoHyphen : w ≠ ['-']) (less : b.toNat < a.toNat) :
    Offence s .rangeOrder x (u ++ '-' :: w ++ v)
  | hyphenEndpoint {x u w v : List Char} {a b : Char} (inside : (opened x).Inside)
    (first : ClassCharText s.dialect u a) (last : ClassCharText s.dialect w b)
    (hyphen : u = ['-'] ∨ w = ['-']) : Offence s .hyphenEndpoint x (u ++ '-' :: w ++ v)
  | backreference {x v : List Char} {c : Char} (xpath : s.dialect = .xpath)
    (outside : (opened x).Outside) (digit : '1' ≤ c ∧ c ≤ '9') :
    Offence s .backreference x ('\\' :: c :: v)
  | nestingTooDeep {x v : List Char} {c : Char} (bracket : c = '(' ∨ c = '[')
    (full : openBrackets x = s.nestLimit) (opens : openBrackets (x ++ [c]) = s.nestLimit + 1) :
    Offence s (.nestingTooDeep s.nestLimit) x (c :: v)
  | unknownCategory {x v : List Char} {p : Char} {name : String} (unescaped : (opened x).escaped = false)
    (letter : p = 'p' ∨ p = 'P') (nonempty : name ≠ "") (letters : ∀ c ∈ name.toList, NameChar c)
    (unknown : name ∉ Unicode.categoryNames) :
    Offence s (.unknownCategory name) (x ++ ['\\', p, '{']) (name.toList ++ '}' :: v)
  | unknownBlock {x v : List Char} {p : Char} {name : String} (xpath : s.dialect = .xpath)
    (unescaped : (opened x).escaped = false) (letter : p = 'p' ∨ p = 'P') (nonempty : name ≠ "")
    (letters : ∀ c ∈ name.toList, NameChar c) (ends : ∀ c ∈ v.head?, ¬ NameChar c)
    (unknown : Unicode.block? name = none) :
    Offence s (.unknownBlock name) (x ++ ['\\', p, '{']) ('I' :: 's' :: name.toList ++ v)

variable {s : Settings} {x t r : List Char} {v : Violation}

theorem required_eq_error {missing : Violation} {found : Option CodepointSet} :
    required missing found = .error v ↔ found = none ∧ v = missing := by
  cases found <;> simp [required, eq_comm]

theorem blockNamed_eq_error {d : Dialect} {name : List Char} : blockNamed d name = .error v ↔
    d = .xpath ∧ Unicode.block? (String.ofList name) = none ∧ v = .unknownBlock (String.ofList name) := by
  have strict : (if d.unknownBlocksMatchEverything then some CodepointSet.full else none) = none ↔
      d = .xpath := by
    cases d <;> simp [Dialect.unknownBlocksMatchEverything]
  rw [blockNamed, required_eq_error, Option.or_eq_none_iff, strict, and_assoc, and_left_comm]

theorem offence_of_breaks_block {p : Char} (breaks : (block s).Breaks t v r)
    (unescaped : (opened x).escaped = false) (letter : p = 'p' ∨ p = 'P') :
    r = t ∧ Offence s v (x ++ ['\\', p, '{']) r := by
  obtain never | ⟨place, name, u, takes, error⟩ := breaks.of_resolve
  · exact absurd never ((breaksNothing_token "Is").andThen (fun _ => breaksNothing_name) t v r)
  · obtain ⟨_, y, front, takes⟩ := takes_skipThen.mp takes
    obtain ⟨same, nonempty, letters, ends⟩ := takes_name.mp takes
    obtain ⟨xpath, unknown, reason⟩ := blockNamed_eq_error.mp error
    rw [takes_token] at front
    subst place front same reason
    have offence := Offence.unknownBlock (x := x) xpath unescaped letter
      (mt String.ofList_eq_empty_iff.mp nonempty) (by simpa using letters) ends unknown
    exact ⟨rfl, by simpa using offence⟩

/-- A name of a category is read as such, so what is refused as one is not. -/
theorem offence_of_breaks_property {p : Char} (breaks : (property s).Breaks t v r)
    (unescaped : (opened x).escaped = false) (letter : p = 'p' ∨ p = 'P') :
    r = t ∧ Offence s v (x ++ ['\\', p, '{']) r := by
  have closing : (peek (token "\x7d")).BreaksNothing := (breaksNothing_token _).peek
  obtain early | ⟨rejects, other⟩ := Breaks.of_orElse breaks
  · obtain never | ⟨_, block⟩ := early.of_orElse
    · exact absurd never (breaksNothing_category.thenSkip closing t v r)
    · exact offence_of_breaks_block block unescaped letter
  · obtain never | ⟨place, name, u, takes, error⟩ := other.of_resolve
    · exact absurd never (breaksNothing_name.thenSkip closing t v r)
    · obtain ⟨y, takes, _, ahead⟩ := takes_thenSkip.mp takes
      obtain ⟨same, nonempty, letters, _⟩ := takes_name.mp takes
      obtain ⟨⟨z, behind⟩, _⟩ := takes_peek.mp ahead
      have brace : y = '}' :: z := takes_token.mp behind
      cases error
      subst place same brace
      have unknown : String.ofList name ∉ Unicode.categoryNames := by
        intro listed
        have read := takes_category_of_name (s := s) listed z
        rw [String.toList_ofList] at read
        exact (rejects_orElse.mp rejects).1.not_takes (takes_thenSkip.mpr ⟨_, read, _, ahead⟩)
      have offence := Offence.unknownCategory (s := s) (x := x) (v := z) unescaped letter
        (mt String.ofList_eq_empty_iff.mp nonempty) (by simpa using letters) unknown
      rw [String.toList_ofList] at offence
      exact ⟨rfl, offence⟩

theorem offence_of_breaks_classEscape (breaks : (classEscape s).Breaks t v r)
    (unescaped : (opened x).escaped = false) : ∃ w, t = w ++ r ∧ Offence s v (x ++ w) r := by
  obtain ⟨q, member, breaks⟩ := breaks.of_firstOf
  simp only [List.mem_cons, List.not_mem_nil, or_false] at member
  obtain same | same | same := member <;> rw [same] at breaks
  · exact absurd breaks (breaksNothing_letterEscape t v r)
  · obtain ⟨u, front, breaks⟩ := breaks.of_delimited
    obtain ⟨place, offence⟩ := offence_of_breaks_property breaks unescaped (.inl rfl)
    exact ⟨['\\', 'p', '{'], place ▸ front, offence⟩
  · obtain ⟨u, front, breaks⟩ := breaks.of_map.of_delimited
    obtain ⟨place, offence⟩ := offence_of_breaks_property breaks unescaped (.inr rfl)
    exact ⟨['\\', 'P', '{'], place ▸ front, offence⟩

theorem offence_of_breaks_bound {y : List Char} (breaks : (bound s).Breaks t v r)
    (outside : (opened x).Outside) (front : y = [] ∨ ∃ u n, Bound u n ∧ y = u ++ [',']) :
    r = t ∧ Offence s v (x ++ '{' :: y) r := by
  obtain never | ⟨place, digits, u, takes, error⟩ := breaks.of_resolve
  · exact absurd never (breaksNothing_digit.many1.consumed t v r)
  · obtain ⟨same, nonempty, all, ends⟩ := takes_digits.mp takes
    rw [readNumeral?_of_digits nonempty all] at error
    by_cases fits : Text.valueOf 10 digits ≤ Text.maxWord
    · rw [if_pos fits] at error
      cases error
    · rw [if_neg fits] at error
      cases error
      subst place same
      exact ⟨rfl, .quantifierTooLarge outside front nonempty all ends (Nat.lt_of_not_le fits)⟩

theorem boundsInOrder_eq_error {n m : Nat} :
    boundsInOrder (n, m) = .error v ↔ m < n ∧ v = .quantifierOrder := by
  by_cases less : m < n <;> simp [boundsInOrder, less, eq_comm]

/-- The first bound starts at the brace, the second one behind the comma, and their order is looked at
from where the first one starts. -/
theorem offence_of_breaks_quantity (breaks : (quantity s).Breaks t v r)
    (outside : (opened x).Outside) : ∃ y, t = y ++ r ∧ Offence s v (x ++ '{' :: y) r := by
  have comma := breaksNothing_token ","
  have first (breaks : (bound s).Breaks t v r) : ∃ y, t = y ++ r ∧ Offence s v (x ++ '{' :: y) r := by
    obtain ⟨place, offence⟩ := offence_of_breaks_bound breaks outside (.inl rfl)
    exact ⟨[], place.symm, offence⟩
  obtain ⟨q, member, breaks⟩ := breaks.of_firstOf
  simp only [List.mem_cons, List.not_mem_nil, or_false] at member
  obtain same | same | same := member <;> rw [same] at breaks
  · obtain inside | ⟨place, ⟨n, m⟩, u, takes, error⟩ := breaks.of_resolve
    · obtain breaks | ⟨n, u, takes, rest⟩ := inside.of_pair
      · exact first breaks
      · obtain never | ⟨_, y, behind, second⟩ := rest.of_skipThen
        · exact absurd never (comma u v r)
        · obtain ⟨w, front, least, _⟩ := takes_bound.mp takes
          rw [takes_token] at behind
          obtain ⟨place, offence⟩ := offence_of_breaks_bound second outside (.inr ⟨w, n, least, rfl⟩)
          subst front behind place
          exact ⟨w ++ [','], by simp, offence⟩
    · obtain ⟨less, reason⟩ := boundsInOrder_eq_error.mp error
      obtain ⟨y, takes, rest⟩ := takes_pair.mp takes
      obtain ⟨_, z, behind, takesToo⟩ := takes_skipThen.mp rest
      obtain ⟨w, front, least, _⟩ := takes_bound.mp takes
      obtain ⟨w', frontToo, most, ends⟩ := takes_bound.mp takesToo
      rw [takes_token] at behind
      subst place reason front behind frontToo
      exact ⟨[], rfl, by simpa using Offence.quantifierOrder (s := s) outside least most ends less⟩
  · obtain breaks | ⟨_, u, _, never⟩ := breaks.of_map.of_thenSkip
    · exact first breaks
    · exact absurd never (comma u v r)
  · exact first breaks.of_map

theorem offence_of_breaks_quantifier (breaks : (quantifier s).Breaks t v r)
    (outside : (opened x).Outside) : ∃ w, t = w ++ r ∧ Offence s v (x ++ w) r := by
  have greedy (breaks : (greedyQuantifier s).Breaks t v r) :
      ∃ w, t = w ++ r ∧ Offence s v (x ++ w) r := by
    have sign (text : String) (q : Quantifier) : ((token text).as q).BreaksNothing :=
      (breaksNothing_token text).map _
    obtain ⟨q, member, breaks⟩ := breaks.of_firstOf
    simp only [List.mem_cons, List.not_mem_nil, or_false] at member
    obtain same | same | same | same := member <;> rw [same] at breaks
    · exact absurd breaks (sign _ _ t v r)
    · exact absurd breaks (sign _ _ t v r)
    · exact absurd breaks (sign _ _ t v r)
    · obtain ⟨u, front, breaks⟩ := breaks.of_delimited
      obtain ⟨y, same, offence⟩ := offence_of_breaks_quantity breaks outside
      exact ⟨'{' :: y, by rw [front, same]; rfl, offence⟩
  unfold quantifier at breaks
  split at breaks
  · exact greedy breaks
  · obtain breaks | ⟨_, u, _, never⟩ := breaks.of_thenSkip
    · exact greedy breaks
    · exact absurd never ((breaksNothing_token _).opt u v r)

/-- An end of a range is the text of a character, and there is nothing for a bare hyphen. -/
theorem text_of_takes_endpoint {d : Dialect} {t v : List Char} {value : Option Char}
    (takes : (endpoint d).Takes t value v) : ∃ w c, t = w ++ v ∧ ClassCharText d w c ∧
      (value = none ∧ w = ['-'] ∨ value = some c ∧ w ≠ ['-']) := by
  cases value with
  | none =>
    obtain hyphen | ⟨_, other⟩ := takes_orElse.mp takes
    · have front := takes_token.mp (takes_as.mp hyphen).1.choose_spec
      exact ⟨['-'], '-', front, .unescaped (by decide), .inl ⟨rfl, rfl⟩⟩
    · obtain ⟨_, _, never⟩ := takes_map.mp other
      cases never
  | some c =>
    obtain ⟨w, same, text, noHyphen⟩ := takes_endpoint.mp takes
    exact ⟨w, c, same, text, .inr ⟨rfl, noHyphen⟩⟩

theorem rangeBetween_eq_error {a b : Char} :
    rangeBetween (some a, some b) = .error v ↔ b.toNat < a.toNat ∧ v = .rangeOrder := by
  by_cases less : b.toNat < a.toNat <;> simp [rangeBetween, CodepointSet.ofBounds, less, eq_comm]

theorem offence_of_breaks_charRange (breaks : (charRange s).Breaks t v r)
    (inside : (opened x).Inside) : r = t ∧ Offence s v x r := by
  obtain never | ⟨place, ⟨first, last⟩, z, takes, error⟩ := breaks.of_resolve
  · have nothing := breaksNothing_endpoint s.dialect
    exact absurd never (nothing.andThen (fun a =>
      ((breaksNothing_token _).andThen fun _ => nothing).map fun b => (a, b)) t v r)
  · obtain ⟨y, takesFirst, rest⟩ := takes_pair.mp takes
    obtain ⟨_, y', hyphen, takesLast⟩ := takes_skipThen.mp rest
    obtain ⟨u, a, front, textFirst, formFirst⟩ := text_of_takes_endpoint takesFirst
    obtain ⟨w, b, behind, textLast, formLast⟩ := text_of_takes_endpoint takesLast
    rw [takes_token] at hyphen
    subst place front hyphen behind
    have split : u ++ ("-".toList ++ (w ++ z)) = u ++ '-' :: w ++ z := by simp
    rw [split]
    refine ⟨rfl, ?_⟩
    obtain ⟨none, bare⟩ | ⟨some, noHyphen⟩ := formFirst
    · rw [none] at error
      cases error
      exact .hyphenEndpoint inside textFirst textLast (.inl bare)
    obtain ⟨none, bare⟩ | ⟨someToo, noHyphenToo⟩ := formLast
    · rw [some, none] at error
      cases error
      exact .hyphenEndpoint inside textFirst textLast (.inr bare)
    rw [some, someToo] at error
    obtain ⟨less, reason⟩ := rangeBetween_eq_error.mp error
    exact reason ▸ .rangeOrder inside textFirst textLast noHyphen noHyphenToo less

theorem offence_of_breaks_backreference (breaks : (backreference s).Breaks t v r)
    (xpath : s.dialect = .xpath) (outside : (opened x).Outside) : r = t ∧ Offence s v x r := by
  obtain never | ⟨place, _, z, takes, error⟩ := breaks.of_resolve
  · have nothing := (breaksNothing_oneOf ['1', '2', '3', '4', '5', '6', '7', '8', '9']).andThen
      fun a => breaksNothing_digit.many.map fun b => (a, b)
    exact absurd never ((breaksNothing_token "\\").andThen (fun _ => nothing) t v r)
  · obtain ⟨_, u, backslash, takes⟩ := takes_skipThen.mp takes
    obtain ⟨y, first, _⟩ := takes_pair.mp takes
    obtain ⟨same, member⟩ := takes_oneOf.mp first
    rw [takes_token] at backslash
    have digits : ∀ c ∈ ['1', '2', '3', '4', '5', '6', '7', '8', '9'], '1' ≤ c ∧ c ≤ '9' := by simp
    cases error
    subst place backslash same
    exact ⟨rfl, .backreference xpath outside (digits _ member)⟩

end SchemaRegex.Pattern

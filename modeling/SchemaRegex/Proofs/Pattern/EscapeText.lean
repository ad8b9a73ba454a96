import SchemaRegex.Pattern.ClassEscape
import SchemaRegex.Proofs.Pattern.Recovery
import SchemaRegex.Proofs.Unicode.CategoryNames

/-!
# The text of an escape

Escapes for a single character and for a class, as texts with the character or the set they stand
for. The readers take exactly these texts, whatever follows (`takes_escapedChar`,
`takes_classEscape`).
-/

namespace SchemaRegex

theorem escapable_xsd : Dialect.xsd.escapable =
    ['\\', '|', '.', '-', '^', '?', '*', '+', '{', '}', '(', ')', '[', ']'] := String.toList_ofList

theorem escapable_xpath : Dialect.xpath.escapable =
    ['\\', '|', '.', '-', '^', '?', '*', '+', '{', '}', '(', ')', '[', ']', '$'] :=
  String.toList_ofList

theorem metacharacters_xsd : Dialect.xsd.metacharacters =
    ['.', '\\', '?', '*', '+', '{', '}', '(', ')', '|', '[', ']'] := String.toList_ofList

theorem metacharacters_xpath : Dialect.xpath.metacharacters =
    ['.', '\\', '?', '*', '+', '{', '}', '(', ')', '|', '[', ']', '^', '$'] := String.toList_ofList

theorem mem_metacharacters_of_xsd {d : Dialect} {c : Char} (special : c ∈ Dialect.xsd.metacharacters) :
    c ∈ d.metacharacters := by
  cases d with
  | xsd => exact special
  | xpath =>
    rw [metacharacters_xpath]
    rw [metacharacters_xsd] at special
    exact List.mem_append_left ['^', '$'] special

namespace Pattern

open Reader

inductive CharEscape (d : Dialect) : List Char → Char → Prop
  | newline : CharEscape d ['\\', 'n'] '\n'
  | carriageReturn : CharEscape d ['\\', 'r'] '\r'
  | tab : CharEscape d ['\\', 't'] '\t'
  | itself {c : Char} (escapable : c ∈ d.escapable) : CharEscape d ['\\', c] c

theorem escapable_not_letter {d : Dialect} {c : Char} (escapable : c ∈ d.escapable) :
    c.isAlpha = false := by
  have all : (d.escapable.all fun c => !c.isAlpha) = true := by
    cases d
    · rw [escapable_xsd]
      decide
    · rw [escapable_xpath]
      decide
  simpa using List.all_eq_true.mp all c escapable

theorem takes_escapedChar {d : Dialect} {t v : List Char} {c : Char} :
    (escapedChar d).Takes t c v ↔ ∃ w, t = w ++ v ∧ CharEscape d w c := by
  simp only [escapedChar, firstOf, List.foldl, takes_skipThen, takes_token, takes_orElse, takes_as,
    takes_oneOf, rejects_orElse, rejects_as]
  constructor
  · intro given
    obtain ⟨_, u, front, choice⟩ := given
    obtain ((⟨⟨_, letter⟩, value⟩ | ⟨_, ⟨_, letter⟩, value⟩) | ⟨_, ⟨_, letter⟩, value⟩) |
      ⟨_, letter, escapable⟩ := choice <;>
      subst front letter
    · exact ⟨['\\', 'n'], by simp, value ▸ .newline⟩
    · exact ⟨['\\', 'r'], by simp, value ▸ .carriageReturn⟩
    · exact ⟨['\\', 't'], by simp, value ▸ .tab⟩
    · exact ⟨['\\', c], by simp, .itself escapable⟩
  · intro given
    obtain ⟨w, same, escape⟩ := given
    subst same
    refine ⟨(), w.tail ++ v, by cases escape <;> simp, ?_⟩
    cases escape with
    | newline => exact .inl (.inl (.inl ⟨⟨(), by simp⟩, rfl⟩))
    | carriageReturn =>
      have notN : (token "n").Rejects ('r' :: v) := rejects_token.mpr (by simp)
      exact .inl (.inl (.inr ⟨notN, ⟨(), by simp⟩, rfl⟩))
    | tab =>
      have notN : (token "n").Rejects ('t' :: v) := rejects_token.mpr (by simp)
      have notR : (token "r").Rejects ('t' :: v) := rejects_token.mpr (by simp)
      exact .inl (.inr ⟨⟨notN, notR⟩, ⟨(), by simp⟩, rfl⟩)
    | itself escapable =>
      have letter := escapable_not_letter escapable
      have other (a : Char) (alpha : a.isAlpha = true) : a ≠ c := by
        intro same
        rw [same, letter] at alpha
        cases alpha
      have notN : (token "n").Rejects (c :: v) := rejects_token.mpr (by simp [other])
      have notR : (token "r").Rejects (c :: v) := rejects_token.mpr (by simp [other])
      have notT : (token "t").Rejects (c :: v) := rejects_token.mpr (by simp [other])
      exact .inr ⟨⟨⟨notN, notR⟩, notT⟩, rfl, escapable⟩

theorem recovers_escapedChar (d : Dialect) : (escapedChar d).Recovers := by
  have letter (text : String) (c : Char) : ((token text).as c).Recovers :=
    (recovers_token text).map fun _ => c
  exact (recovers_token "\\").andThen fun _ =>
    (((letter "n" '\n').orElse (letter "r" '\r')).orElse (letter "t" '\t')).orElse
      (recovers_oneOf d.escapable)

def NameChar (c : Char) : Prop := c.isAlphanum = true ∨ c = '-'

inductive PropertyText (d : Dialect) : List Char → CodepointSet → Prop
  | category {name : String} (member : name ∈ Unicode.categoryNames) :
    PropertyText d name.toList ((Unicode.category? name).getD .empty)
  | block {name : List Char} {set : CodepointSet} (nonempty : name ≠ [])
    (letters : ∀ c ∈ name, NameChar c) (known : Unicode.block? (String.ofList name) = some set) :
    PropertyText d ('I' :: 's' :: name) set
  | unknownBlock {name : List Char} (lenient : d = .xsd) (nonempty : name ≠ [])
    (letters : ∀ c ∈ name, NameChar c) (unknown : Unicode.block? (String.ofList name) = none) :
    PropertyText d ('I' :: 's' :: name) .full

inductive ClassEscape (d : Dialect) : List Char → CodepointSet → Prop
  | letter {c : Char} {set : CodepointSet} (meaning : Unicode.escape? c = some set) :
    ClassEscape d ['\\', c] set
  | property {w : List Char} {set : CodepointSet} (text : PropertyText d w set) :
    ClassEscape d ('\\' :: 'p' :: '{' :: w ++ ['}']) set
  | complement {w : List Char} {set : CodepointSet} (text : PropertyText d w set) :
    ClassEscape d ('\\' :: 'P' :: '{' :: w ++ ['}']) set.complement

theorem takes_name {t v w : List Char} :
    (consumed nameChar.many1).Takes t w v ↔
      t = w ++ v ∧ w ≠ [] ∧ (∀ c ∈ w, NameChar c) ∧ ∀ c ∈ v.head?, ¬ NameChar c := by
  simp only [nameChar, takes_consumed_satisfying, NameChar, Bool.or_eq_true, beq_iff_eq,
    Bool.or_eq_false_iff, beq_eq_false_iff_ne, not_or, Bool.not_eq_true]

theorem required_eq_ok {missing : Violation} {found : Option CodepointSet} {set : CodepointSet} :
    required missing found = .ok set ↔ found = some set := by
  cases found <;> simp [required]

/-- The name of a group, and the second letter of a category where one comes next. -/
theorem takes_groupName {group : String} {letters t v w : List Char} :
    (consumed ((token group).pair (opt (oneOf letters)))).Takes t w v ↔ t = w ++ v ∧
      (w = group.toList ∧ (∀ c ∈ v.head?, c ∉ letters) ∨ ∃ c ∈ letters, w = group.toList ++ [c]) := by
  rw [takes_consumed]
  constructor
  · intro given
    obtain ⟨⟨⟨_, letter⟩, read⟩, text⟩ := given
    obtain ⟨u, front, read⟩ := takes_pair.mp read
    rw [takes_token] at front
    cases letter with
    | none =>
      obtain ⟨stops, same⟩ := takes_opt_none.mp read
      subst front same
      rw [take_front] at text
      exact ⟨by rw [text], .inl ⟨text, rejects_oneOf.mp stops⟩⟩
    | some c =>
      obtain ⟨same, member⟩ := takes_oneOf.mp (takes_opt_some.mp read)
      subst front same
      rw [List.append_cons, take_front] at text
      exact ⟨by rw [text, ← List.append_cons], .inr ⟨c, member, text⟩⟩
  · intro given
    obtain ⟨same, form⟩ := given
    subst same
    refine ⟨?_, (take_front w v).symm⟩
    obtain ⟨text, stops⟩ | ⟨c, member, text⟩ := form
    · refine ⟨((), none), takes_pair.mpr ⟨v, by rw [takes_token, text], ?_⟩⟩
      exact takes_opt_none.mpr ⟨rejects_oneOf.mpr stops, rfl⟩
    · refine ⟨((), some c), takes_pair.mpr ⟨c :: v, by rw [takes_token, text, ← List.append_cons], ?_⟩⟩
      exact takes_opt_some.mpr (takes_oneOf.mpr ⟨rfl, member⟩)

theorem mem_categoryNames_of_takes {group : Unicode.CategoryGroup} {t v w : List Char}
    (takes : (consumed ((token group.name).pair (opt (oneOf group.letters)))).Takes t w v) :
    String.ofList w ∈ Unicode.categoryNames := by
  obtain ⟨_, ⟨text, _⟩ | ⟨c, letter, text⟩⟩ := takes_groupName.mp takes
  · rw [text, String.ofList_toList]
    exact (Unicode.mem_categoryNames_of_letters group).1
  · rw [text]
    exact (Unicode.mem_categoryNames_of_letters group).2 c letter

theorem categoryNamed_eq_ok {name : List Char} {set : CodepointSet} :
    categoryNamed name = .ok set ↔ Unicode.category? (String.ofList name) = some set :=
  required_eq_ok

theorem rejects_categoryOf {s : Settings} {group : String} {letters t : List Char}
    (other : ¬ group.toList <+: t) : (categoryOf s group letters).Rejects t :=
  (rejects_consumed.mpr (rejects_pair.mpr (.inl (rejects_token.mpr other)))).resolve

def groupReaders (s : Settings) : List (Reader CodepointSet) :=
  Unicode.CategoryGroup.all.map fun group => categoryOf s group.name group.letters

theorem category_eq (s : Settings) :
    ∃ p ps, groupReaders s = p :: ps ∧ category s = firstOf p ps := by
  simp only [groupReaders, Unicode.CategoryGroup.all, List.map, Unicode.CategoryGroup.name,
    Unicode.CategoryGroup.letters]
  exact ⟨_, _, rfl, category.eq_1 s⟩

/-- Different groups start with different letters. -/
theorem group_eq_of_start {g h : Unicode.CategoryGroup} {v : List Char}
    (front : h.name.toList <+: g.name.toList ++ v) : h = g := by
  cases g <;> cases h <;> first | rfl | simp [Unicode.CategoryGroup.name] at front

theorem name_of_takes_category {s : Settings} {t v : List Char} {set : CodepointSet}
    (takes : (category s).Takes t set v) :
    ∃ name ∈ Unicode.categoryNames, t = name.toList ++ v ∧ Unicode.category? name = some set := by
  obtain ⟨p, ps, readers, same⟩ := category_eq s
  rw [same] at takes
  obtain ⟨q, member, takes⟩ := exists_of_takes_firstOf takes
  rw [← readers] at member
  obtain ⟨group, _, same⟩ := List.mem_map.mp member
  rw [← same] at takes
  obtain ⟨w, read, known⟩ := takes_resolve.mp takes
  exact ⟨String.ofList w, mem_categoryNames_of_takes read,
    by rw [String.toList_ofList, (takes_groupName.mp read).1], categoryNamed_eq_ok.mp known⟩

theorem closing_not_letter (group : Unicode.CategoryGroup) : '}' ∉ group.letters := by
  cases group <;> decide

theorem takes_category_of_name {s : Settings} {name : String} (member : name ∈ Unicode.categoryNames)
    (v : List Char) : (category s).Takes (name.toList ++ '}' :: v)
      ((Unicode.category? name).getD .empty) ('}' :: v) := by
  obtain ⟨set, known⟩ := Option.isSome_iff_exists.mp (Unicode.category?_isSome member)
  obtain ⟨group, form⟩ := Unicode.letters_of_mem_categoryNames member
  rw [known, Option.getD_some]
  have takes : (categoryOf s group.name group.letters).Takes (name.toList ++ '}' :: v) set
      ('}' :: v) := by
    refine takes_resolve.mpr ⟨name.toList, takes_groupName.mpr ⟨rfl, ?_⟩,
      categoryNamed_eq_ok.mpr (by rw [String.ofList_toList, known])⟩
    obtain same | ⟨c, letter, same⟩ := form
    · refine .inl ⟨by rw [same], fun c head => ?_⟩
      cases head
      exact closing_not_letter group
    · exact .inr ⟨c, letter, by rw [same, String.toList_ofList]⟩
  have front : ∃ u, name.toList ++ '}' :: v = group.name.toList ++ u := by
    obtain same | ⟨c, letter, same⟩ := form
    · exact ⟨_, by rw [same]⟩
    · exact ⟨c :: '}' :: v, by rw [same, String.toList_ofList, List.append_assoc, List.singleton_append]⟩
  obtain ⟨u, front⟩ := front
  obtain ⟨p, ps, readers, same⟩ := category_eq s
  rw [same]
  apply takes_firstOf
  · intro q member
    rw [← readers] at member
    obtain ⟨g, _, same⟩ := List.mem_map.mp member
    rw [← same]
    by_cases start : g.name.toList <+: name.toList ++ '}' :: v
    · rw [front] at start
      rw [group_eq_of_start start]
      exact .inl takes
    · exact .inr (rejects_categoryOf start)
  · refine ⟨_, ?_, takes⟩
    rw [← readers]
    exact List.mem_map.mpr ⟨group, by cases group <;> decide, rfl⟩

theorem rejects_category {s : Settings} {t : List Char}
    (other : ∀ group : Unicode.CategoryGroup, ¬ group.name.toList <+: t) : (category s).Rejects t := by
  obtain ⟨p, ps, readers, same⟩ := category_eq s
  rw [same]
  apply rejects_firstOf
  intro q member
  rw [← readers] at member
  obtain ⟨group, _, same⟩ := List.mem_map.mp member
  rw [← same]
  exact rejects_categoryOf (other group)

theorem takes_block {s : Settings} {t v : List Char} {set : CodepointSet} :
    (block s).Takes t set v ↔ ∃ name, t = 'I' :: 's' :: name ++ v ∧ name ≠ [] ∧
      (∀ c ∈ name, NameChar c) ∧ (∀ c ∈ v.head?, ¬ NameChar c) ∧
      (Unicode.block? (String.ofList name) = some set ∨
        s.dialect = .xsd ∧ Unicode.block? (String.ofList name) = none ∧ set = .full) := by
  have otherwise : (if s.dialect.unknownBlocksMatchEverything then some CodepointSet.full else none) =
      some set ↔ s.dialect = .xsd ∧ set = .full := by
    cases s.dialect <;> simp [Dialect.unknownBlocksMatchEverything, eq_comm]
  simp only [block, takes_resolve, takes_skipThen, takes_token, takes_name, blockNamed,
    required_eq_ok, Option.or_eq_some_iff, otherwise]
  constructor
  · intro given
    obtain ⟨name, ⟨_, u, front, rest, nonempty, letters, stops⟩, found⟩ := given
    subst front rest
    refine ⟨name, by simp, nonempty, letters, stops, found.imp id fun unknown => ?_⟩
    exact ⟨unknown.2.1, unknown.1, unknown.2.2⟩
  · intro given
    obtain ⟨name, same, nonempty, letters, stops, found⟩ := given
    subst same
    refine ⟨name, ⟨(), name ++ v, by simp, rfl, nonempty, letters, stops⟩, found.imp id ?_⟩
    exact fun unknown => ⟨unknown.2.1, unknown.1, unknown.2.2⟩

theorem takes_property {s : Settings} {t v : List Char} {set : CodepointSet} :
    (property s).Takes t set ('}' :: v) ↔
      ∃ w, t = w ++ '}' :: v ∧ PropertyText s.dialect w set := by
  have notName : ∀ c ∈ ('}' :: v).head?, ¬ NameChar c := by
    intro c head
    cases head
    unfold NameChar
    decide
  simp only [property, firstOf, List.foldl]
  constructor
  · intro takes
    obtain (takes | ⟨_, takes⟩) | ⟨_, takes⟩ :=
      (takes_orElse.mp takes).imp takes_orElse.mp id
    · obtain ⟨u, takes, _, ahead⟩ := takes_thenSkip.mp takes
      obtain ⟨_, same⟩ := takes_peek.mp ahead
      obtain ⟨name, member, read, known⟩ := name_of_takes_category takes
      refine ⟨name.toList, by rw [read, same], ?_⟩
      have text : PropertyText s.dialect name.toList _ := .category member
      rw [known] at text
      exact text
    · obtain ⟨name, same, nonempty, letters, _, found⟩ := takes_block.mp takes
      refine ⟨'I' :: 's' :: name, same, ?_⟩
      obtain known | ⟨lenient, unknown, full⟩ := found
      · exact .block nonempty letters known
      · rw [full]
        exact .unknownBlock lenient nonempty letters unknown
    · obtain ⟨_, _, fails⟩ := takes_resolve.mp takes
      cases fails
  · intro given
    obtain ⟨w, same, text⟩ := given
    subst same
    refine takes_orElse.mpr (.inl (takes_orElse.mpr ?_))
    have noCategory (name : List Char) :
        ((category s).thenSkip (peek (token "\x7d"))).Rejects ('I' :: 's' :: name ++ '}' :: v) := by
      refine rejects_thenSkip.mpr (.inl (rejects_category fun group front => ?_))
      cases group <;> simp [Unicode.CategoryGroup.name] at front
    cases text with
    | category member =>
      refine .inl (takes_thenSkip.mpr ⟨'}' :: v, takes_category_of_name member v, (), ?_⟩)
      exact takes_peek.mpr ⟨⟨v, by simp⟩, rfl⟩
    | @block name _ nonempty letters known =>
      exact .inr ⟨noCategory name,
        takes_block.mpr ⟨name, rfl, nonempty, letters, notName, .inl known⟩⟩
    | @unknownBlock name lenient nonempty letters unknown =>
      exact .inr ⟨noCategory name,
        takes_block.mpr ⟨name, rfl, nonempty, letters, notName, .inr ⟨lenient, unknown, rfl⟩⟩⟩

theorem mem_escapeLetters {c : Char} : c ∈ escapeLetters ↔ (Unicode.escape? c).isSome := by
  unfold Unicode.escape? escapeLetters
  split <;> simp_all

theorem takes_letterEscape {t v : List Char} {set : CodepointSet} :
    letterEscape.Takes t set v ↔ ∃ c, t = '\\' :: c :: v ∧ Unicode.escape? c = some set := by
  simp only [letterEscape, takes_map, takes_skipThen, takes_token, takes_oneOf]
  constructor
  · intro given
    obtain ⟨c, ⟨_, u, front, letter, member⟩, value⟩ := given
    subst front letter
    refine ⟨c, by simp, ?_⟩
    obtain ⟨meaning, known⟩ := Option.isSome_iff_exists.mp (mem_escapeLetters.mp member)
    rw [value, known, Option.getD_some]
  · intro given
    obtain ⟨c, same, known⟩ := given
    have member : c ∈ escapeLetters := mem_escapeLetters.mpr (known ▸ rfl)
    exact ⟨c, ⟨(), c :: v, by simp [same], rfl, member⟩, by rw [known, Option.getD_some]⟩

theorem recovers_letterEscape : letterEscape.Recovers :=
  ((recovers_token _).andThen fun _ => recovers_oneOf _).map _

theorem rejects_letterEscape {c : Char} {t : List Char} (other : Unicode.escape? c = none) :
    letterEscape.Rejects ('\\' :: c :: t) := by
  refine recovers_letterEscape.rejects_iff.mpr fun set v takes => ?_
  obtain ⟨d, same, known⟩ := takes_letterEscape.mp takes
  cases same
  rw [other] at known
  cases known

theorem takes_classEscape {s : Settings} {t v : List Char} {set : CodepointSet} :
    (classEscape s).Takes t set v ↔ ∃ w, t = w ++ v ∧ ClassEscape s.dialect w set := by
  constructor
  · intro takes
    obtain ⟨q, member, takes⟩ := exists_of_takes_firstOf takes
    simp only [List.mem_cons, List.not_mem_nil, or_false] at member
    obtain same | same | same := member
    · rw [same] at takes
      obtain ⟨c, same, known⟩ := takes_letterEscape.mp takes
      exact ⟨['\\', c], same, .letter known⟩
    · rw [same] at takes
      obtain ⟨u, front, inside⟩ := takes_delimited.mp takes
      obtain ⟨w, same, text⟩ := takes_property.mp (by simpa using inside)
      refine ⟨_, ?_, .property text⟩
      rw [front, same]
      simp
    · rw [same] at takes
      obtain ⟨inner, takes, value⟩ := takes_map.mp takes
      obtain ⟨u, front, inside⟩ := takes_delimited.mp takes
      obtain ⟨w, same, text⟩ := takes_property.mp (by simpa using inside)
      rw [value]
      refine ⟨_, ?_, ClassEscape.complement text⟩
      rw [front, same]
      simp
  · intro given
    obtain ⟨w, same, escape⟩ := given
    subst same
    cases escape with
    | @letter c _ meaning =>
      exact takes_firstOf_after (rfl : _ = [] ++ _ :: _) (List.forall_mem_nil _)
        (takes_letterEscape.mpr ⟨c, rfl, meaning⟩)
    | @property u _ text =>
      refine takes_firstOf_after (rfl : _ = [_] ++ _ :: _)
        (List.forall_mem_singleton.mpr (rejects_letterEscape rfl))
        (takes_delimited.mpr ⟨u ++ '}' :: v, by simp, ?_⟩)
      simpa using takes_property.mpr ⟨u, rfl, text⟩
    | @complement u inner text =>
      refine takes_firstOf_after (rfl : _ = [_, _] ++ _ :: _)
        (List.forall_mem_cons.mpr ⟨rejects_letterEscape rfl,
          List.forall_mem_singleton.mpr (rejects_delimited (by simp))⟩)
        (takes_map.mpr ⟨inner, takes_delimited.mpr ⟨u ++ '}' :: v, by simp, ?_⟩, rfl⟩)
      simpa using takes_property.mpr ⟨u, rfl, text⟩

theorem ClassEscape.start {d : Dialect} {w : List Char} {set : CodepointSet}
    (escape : ClassEscape d w set) :
    ∃ c u, w = '\\' :: c :: u ∧ (c ∈ escapeLetters ∨ c = 'p' ∨ c = 'P') := by
  cases escape with
  | @letter c _ meaning => exact ⟨c, [], rfl, .inl (mem_escapeLetters.mpr (meaning ▸ rfl))⟩
  | property => exact ⟨'p', _, rfl, .inr (.inl rfl)⟩
  | complement => exact ⟨'P', _, rfl, .inr (.inr rfl)⟩

theorem CharEscape.start {d : Dialect} {w : List Char} {c : Char} (escape : CharEscape d w c) :
    ∃ e, w = ['\\', e] ∧ ¬ (e ∈ escapeLetters ∨ e = 'p' ∨ e = 'P') := by
  cases escape with
  | newline => exact ⟨'n', rfl, by decide⟩
  | carriageReturn => exact ⟨'r', rfl, by decide⟩
  | tab => exact ⟨'t', rfl, by decide⟩
  | itself escapable =>
    have letters : ∀ e, e ∈ escapeLetters ∨ e = 'p' ∨ e = 'P' → e.isAlpha = true := by
      have all : ((escapeLetters ++ ['p', 'P']).all Char.isAlpha) = true := by decide
      intro e member
      exact List.all_eq_true.mp all e (by simpa using member)
    refine ⟨c, rfl, fun member => ?_⟩
    have alpha := letters c member
    rw [escapable_not_letter escapable] at alpha
    cases alpha

/-- No escape is one for a character and for a class. -/
theorem ClassEscape.not_charEscape {d : Dialect} {u v w x : List Char} {set : CodepointSet} {c : Char}
    (escape : ClassEscape d w set) (other : CharEscape d u c) : w ++ v ≠ u ++ x := by
  intro same
  obtain ⟨a, y, front, letter⟩ := escape.start
  obtain ⟨b, text, noLetter⟩ := other.start
  rw [front, text] at same
  cases same
  exact noLetter letter

end Pattern

end SchemaRegex

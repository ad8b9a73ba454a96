import SchemaRegex.Pattern.Grammar
import SchemaRegex.Proofs.Pattern.EscapeText

/-!
# What readers inherit from their parts

If a property of readers passes from the parts of a reader to the reader (`Inherited`), it holds for all
readers of the grammar that read no group. Which readers there are is gone through here once, and each
such property only has to be shown for the ways to build a reader.
-/

namespace SchemaRegex.Pattern

namespace Reader

variable {α β : Type}

def Consumes (p : Reader α) : Prop := ∀ {t a v}, p.Takes t a v → v.length < t.length

theorem consumes_satisfying {test : Char → Bool} {tokens : List String} :
    (anyChar.satisfying test tokens).Consumes := by
  intro t c v takes
  rw [takes_anyChar.mp (takes_satisfying.mp takes).1]
  exact Nat.lt_succ_self _

def AsksForMore (tokens : List String) : Prop := ∃ text ∈ tokens, text ≠ ")"

instance (tokens : List String) : Decidable (AsksForMore tokens) := List.decidableBEx _ _

theorem AsksForMore.append {xs ys : List String} (first : AsksForMore xs) : AsksForMore (xs ++ ys) := by
  obtain ⟨text, member, other⟩ := first
  exact ⟨text, List.mem_append_left ys member, other⟩

theorem asksForMore_chars {chars : List Char} (other : ∃ c ∈ chars, c ≠ ')') :
    AsksForMore (chars.map Char.toString) := by
  obtain ⟨c, member, other⟩ := other
  refine ⟨c.toString, List.mem_map_of_mem member, fun same => other ?_⟩
  have chars := congrArg String.toList same
  simpa using chars

/-- A property that a reader has if its parts have it. Closing parentheses are left out, since only
groups ask for them alone. -/
structure Inherited (commits : Bool) (P : {α : Type} → Reader α → Prop) : Prop where
  accept : ∀ {α : Type} (a : α), P (accept a)
  token : ∀ {text : String}, text ≠ ")" → P (token text)
  anyChar : P anyChar
  oneOf : ∀ {chars : List Char}, (∃ c ∈ chars, c ≠ ')') → P (oneOf chars)
  andThen : ∀ {α β : Type} {p : Reader α} {next : α → Reader β}, P p → (∀ a, P (next a)) →
    P (p.andThen next)
  orElse : ∀ {α : Type} {p q : Reader α}, P p → P q → P (p.orElse q)
  opt : ∀ {α : Type} {p : Reader α}, P p → P p.opt
  many : ∀ {α : Type} {p : Reader α}, p.Consumes → P p → P (many p)
  peek : ∀ {α : Type} {p : Reader α}, P p → P p.peek
  notAhead : ∀ {α : Type} {p : Reader α} {tokens : List String}, AsksForMore tokens → P p →
    P (p.notAhead tokens)
  consumed : ∀ {α : Type} {p : Reader α}, P p → P p.consumed
  satisfying : ∀ {α : Type} {p : Reader α} {test : α → Bool} {tokens : List String},
    AsksForMore tokens → P p → P (p.satisfying test tokens)
  cut : ∀ {α : Type} {p : Reader α}, P p → P (cut commits p)
  resolve : ∀ {α β : Type} {p : Reader α} {f : α → Except Violation β}, P p → P (resolve commits p f)
  items : ∀ {s : Settings}, s.commits = commits → (∀ after, P (item s after)) →
    ∀ started after, P (items s started after)

namespace Inherited

variable {commits : Bool} {P : {α : Type} → Reader α → Prop} (inherited : Inherited commits P)
include inherited

theorem map {p : Reader α} (part : P p) (f : α → β) : P (p.map f) :=
  inherited.andThen part fun a => inherited.accept (f a)

theorem skipThen {p : Reader α} {q : Reader β} (first : P p) (second : P q) : P (p.skipThen q) :=
  inherited.andThen first fun _ => second

theorem thenSkip {p : Reader α} {q : Reader β} (first : P p) (second : P q) : P (p.thenSkip q) :=
  inherited.andThen first fun _ => inherited.map second _

theorem pair {p : Reader α} {q : Reader β} (first : P p) (second : P q) : P (p.pair q) :=
  inherited.andThen first fun _ => inherited.map second _

theorem many1 {p : Reader α} (consumes : p.Consumes) (part : P p) : P p.many1 :=
  inherited.andThen part fun _ => inherited.map (inherited.many consumes part) _

theorem firstOf {p : Reader α} {ps : List (Reader α)} (parts : ∀ q ∈ p :: ps, P q) :
    P (Reader.firstOf p ps) :=
  firstOf_of_forall inherited.orElse parts

theorem delimited {opening closing : String} (other : opening ≠ ")") (closed : P (Reader.token closing))
    {p : Reader α} (part : P p) : P (Reader.delimited commits opening p closing) :=
  inherited.skipThen (inherited.token other) (inherited.cut (inherited.thenSkip part closed))

theorem letter (text : String) (other : text ≠ ")") (a : α) : P ((Reader.token text).as a) :=
  inherited.map (inherited.token other) _

/-- Single characters that pass a test. -/
theorem passing {test : Char → Bool} {tokens : List String} (asks : AsksForMore tokens) :
    P (Reader.anyChar.satisfying test tokens) :=
  inherited.satisfying asks inherited.anyChar

end Inherited

end Reader

open Reader

theorem consumes_digit : digit.Consumes := consumes_satisfying

theorem consumes_nameChar : nameChar.Consumes := consumes_satisfying

theorem backslash_escapable (d : Dialect) : ∃ c ∈ d.escapable, c ≠ ')' := by
  refine ⟨'\\', ?_, by decide⟩
  cases d
  · simp [escapable_xsd]
  · simp [escapable_xpath]

namespace Reader.Inherited

variable {s : Settings} {P : {α : Type} → Reader α → Prop} (inherited : Inherited s.commits P)
include inherited

theorem enclosed {α : Type} {opening closing : String} (other : opening ≠ ")")
    (closed : P (Reader.token closing)) {inner : Option (Reader α)} (inside : ∀ p ∈ inner, P p) :
    P (Reader.enclosed s opening inner closing) := by
  unfold Reader.enclosed
  cases inner with
  | none => exact inherited.resolve (inherited.token other)
  | some p => exact inherited.delimited other closed (inside p rfl)

theorem normalChar : P (Pattern.normalChar s.dialect) := inherited.passing (by decide)

theorem digit : P Pattern.digit := inherited.passing (by decide)

theorem escapedChar : P (Pattern.escapedChar s.dialect) := by
  refine inherited.skipThen (inherited.token (by decide)) (inherited.firstOf ?_)
  simp only [List.forall_mem_cons]
  exact ⟨inherited.letter "n" (by decide) _, inherited.letter "r" (by decide) _,
    inherited.letter "t" (by decide) _, inherited.oneOf (backslash_escapable s.dialect),
    List.forall_mem_nil _⟩

theorem unescapedChar : P Pattern.unescapedChar := inherited.passing (by decide)

theorem classChar : P (Pattern.classChar s.dialect) :=
  inherited.orElse inherited.escapedChar inherited.unescapedChar

theorem letterEscape : P Pattern.letterEscape :=
  inherited.map (inherited.skipThen (inherited.token (by decide))
    (inherited.oneOf ⟨_, List.mem_cons_self, by decide⟩)) _

theorem nameChar : P Pattern.nameChar := inherited.passing (by decide)

theorem name : P (Reader.consumed Pattern.nameChar.many1) :=
  inherited.consumed (inherited.many1 consumes_nameChar inherited.nameChar)

theorem categoryOf (group : Unicode.CategoryGroup) :
    P (Pattern.categoryOf s group.name group.letters) := by
  have nameOther : group.name ≠ ")" := by cases group <;> decide
  have letterOther : ∃ c ∈ group.letters, c ≠ ')' := by
    cases group <;> exact ⟨_, List.mem_cons_self, by decide⟩
  exact inherited.resolve (inherited.consumed
    (inherited.pair (inherited.token nameOther) (inherited.opt (inherited.oneOf letterOther))))

theorem category : P (Pattern.category s) := by
  obtain ⟨p, ps, readers, same⟩ := category_eq s
  rw [same]
  refine inherited.firstOf fun q member => ?_
  rw [← readers] at member
  obtain ⟨group, _, same⟩ := List.mem_map.mp member
  exact same ▸ inherited.categoryOf group

theorem block : P (Pattern.block s) :=
  inherited.resolve (inherited.skipThen (inherited.token (by decide)) inherited.name)

theorem property : P (Pattern.property s) := by
  have closing : P (Reader.peek (Reader.token "\x7d")) := inherited.peek (inherited.token (by decide))
  refine inherited.firstOf ?_
  simp only [List.forall_mem_cons]
  exact ⟨inherited.thenSkip inherited.category closing, inherited.block,
    inherited.resolve (inherited.thenSkip inherited.name closing), List.forall_mem_nil _⟩

theorem classEscape : P (Pattern.classEscape s) := by
  have closing : P (Reader.token "\x7d") := inherited.token (by decide)
  refine inherited.firstOf ?_
  simp only [List.forall_mem_cons]
  exact ⟨inherited.letterEscape, inherited.delimited (by decide) closing inherited.property,
    inherited.map (inherited.delimited (by decide) closing inherited.property) _, List.forall_mem_nil _⟩

theorem bound : P (Pattern.bound s) :=
  inherited.resolve (inherited.consumed (inherited.many1 consumes_digit inherited.digit))

theorem quantity : P (Pattern.quantity s) := by
  have comma : P (Reader.token ",") := inherited.token (by decide)
  have bound := inherited.bound
  refine inherited.firstOf ?_
  simp only [List.forall_mem_cons]
  exact ⟨inherited.resolve (inherited.pair bound (inherited.skipThen comma bound)),
    inherited.map (inherited.thenSkip bound comma) _, inherited.map bound _, List.forall_mem_nil _⟩

theorem greedyQuantifier : P (Pattern.greedyQuantifier s) := by
  refine inherited.firstOf ?_
  simp only [List.forall_mem_cons]
  exact ⟨inherited.letter "?" (by decide) _, inherited.letter "*" (by decide) _,
    inherited.letter "+" (by decide) _,
    inherited.delimited (by decide) (inherited.token (by decide)) inherited.quantity,
    List.forall_mem_nil _⟩

theorem quantifier : P (Pattern.quantifier s) := by
  unfold Pattern.quantifier
  split
  · exact inherited.greedyQuantifier
  · exact inherited.thenSkip inherited.greedyQuantifier (inherited.opt (inherited.token (by decide)))

theorem endOfItems : P Pattern.endOfItems :=
  inherited.peek (inherited.orElse (inherited.token (by decide)) (inherited.token (by decide)))

theorem rangeTail : P Pattern.rangeTail :=
  inherited.skipThen (inherited.token (by decide)) (inherited.passing (by decide))

theorem charAfterSingle : P (Pattern.charAfterSingle s.dialect) := by
  have hyphen : P (Reader.token "-") := inherited.token (by decide)
  refine inherited.orElse (inherited.map (inherited.thenSkip (inherited.thenSkip hyphen ?_)
    inherited.endOfItems) _) (inherited.skipThen ?_ inherited.classChar)
  · exact inherited.notAhead (by decide) (inherited.token (by decide))
  · exact inherited.notAhead (by decide) hyphen

theorem loneChar (after : Bool) : P (Pattern.loneChar s.dialect after) := by
  have first : P (if after then Pattern.charAfterSingle s.dialect else Pattern.classChar s.dialect) := by
    cases after with
    | false => exact inherited.classChar
    | true => exact inherited.charAfterSingle
  exact inherited.thenSkip first (inherited.notAhead (by decide) inherited.rangeTail)

theorem endpoint : P (Pattern.endpoint s.dialect) :=
  inherited.orElse (inherited.map (inherited.token (by decide)) _) (inherited.map inherited.classChar _)

theorem charRange : P (Pattern.charRange s) :=
  inherited.resolve (inherited.pair inherited.endpoint
    (inherited.skipThen (inherited.token (by decide)) inherited.endpoint))

theorem item (after : Bool) : P (Pattern.item s after) :=
  inherited.orElse (inherited.map (inherited.loneChar after) _)
    (inherited.map (inherited.orElse inherited.charRange inherited.classEscape) _)

theorem positiveGroup : P (Pattern.positiveGroup s) :=
  inherited.skipThen (inherited.notAhead (by decide) (inherited.token (by decide)))
    (inherited.map (inherited.items rfl inherited.item _ _) _)

theorem negativeGroup : P (Pattern.negativeGroup s) :=
  inherited.skipThen (inherited.token (by decide)) (inherited.map (inherited.items rfl inherited.item _ _) _)

theorem charGroup {except : Reader CodepointSet} (inside : P except) : P (Pattern.charGroup s except) :=
  inherited.map (inherited.pair (inherited.orElse inherited.positiveGroup inherited.negativeGroup)
    (inherited.opt (inherited.skipThen (inherited.token (by decide)) inside))) _

theorem classExpr (n : Nat) : P (Pattern.classExpr s n) := by
  have closing : P (Reader.token "]") := inherited.token (by decide)
  induction n with
  | zero =>
    change P (Reader.enclosed s "[" none "]")
    exact inherited.enclosed (by decide) closing fun p reader => by cases reader
  | succ n ih =>
    change P (Reader.enclosed s "[" (some (Pattern.charGroup s (Pattern.classExpr s n))) "]")
    refine inherited.enclosed (by decide) closing fun p reader => ?_
    cases reader
    exact inherited.charGroup ih

theorem charAtom (n : Nat) : P (Pattern.charAtom s (Pattern.classExpr s n)) := by
  refine inherited.firstOf ?_
  simp only [List.forall_mem_cons]
  exact ⟨inherited.map inherited.escapedChar _, inherited.map inherited.classEscape _,
    inherited.map (inherited.classExpr n) _, inherited.letter "." (by decide) _, List.forall_mem_nil _⟩

theorem backreference : P (Pattern.backreference s) :=
  inherited.resolve (inherited.skipThen (inherited.token (by decide)) (inherited.pair
    (inherited.oneOf ⟨_, List.mem_cons_self, by decide⟩) (inherited.many consumes_digit inherited.digit)))

end Reader.Inherited

end SchemaRegex.Pattern

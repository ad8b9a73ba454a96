import SchemaRegex.Proofs.Pattern.Inherited
import SchemaRegex.Proofs.Pattern.Soundness

/-!
# What readers of groups inherit from their parts

A group asks for its closing parenthesis, records the failures of its pieces, and some of its alternatives
may be switched off. A property that passes from the parts to the reader there too (`InheritedByGroups`)
holds for all readers of the grammar, since no piece and no alternative behind a bar takes the empty text.
-/

namespace SchemaRegex.Pattern

namespace Reader

structure InheritedByGroups (commits : Bool) (P : {α : Type} → Reader α → Prop) : Prop
    extends Inherited commits P where
  closing : P (Reader.token ")")
  recorded : ∀ {α : Type} {p : Reader α}, P p → P p.recorded
  switched : ∀ {α : Type} {p q : Reader α} {enabled : Bool}, P p → P q → P (p.orElse (guarded enabled q))
  atEnd : P Reader.atEnd

end Reader

open Reader

variable {s : Settings} {n : Nat}

theorem derivesAtom_of_takes_atom {t v : List Char} {x : Atom}
    (takes : (atom s (classExpr s n) (groupReader s n)).Takes t x v) :
    ∃ w, t = w ++ v ∧ DerivesAtom s.dialect n w x := by
  refine derivesAtom_of_takes (fun p reader t r v takes => ?_) takes
  cases n with
  | zero => cases reader
  | succ m =>
    cases reader
    obtain ⟨w, same, regex⟩ := derivesRegex_of_takes takes
    exact ⟨m, w, rfl, same, regex⟩

theorem consumes_piece : (piece s (atom s (classExpr s n) (groupReader s n))).Consumes := by
  intro t p v takes
  obtain ⟨w, same, derives⟩ := derivesPiece_of_takes derivesAtom_of_takes_atom takes
  obtain ⟨c, u, start, _⟩ := derives.start
  rw [same, start, List.cons_append, List.length_cons, List.length_append]
  omega

theorem consumes_bar {commits : Bool} :
    ((token "|").skipThen (cut commits (branch s (atom s (classExpr s n) (groupReader s n))))).Consumes := by
  intro t b v takes
  obtain ⟨_, u, bar, takes⟩ := takes_skipThen.mp takes
  obtain ⟨w, same, _⟩ := derivesBranch_of_takes derivesAtom_of_takes_atom (takes_cut.mp takes)
  rw [takes_token.mp bar, same, List.length_append, List.length_append, String.length_toList]
  change v.length < 1 + (w.length + v.length)
  omega

inductive Repeated (s : Settings) : {α : Type} → Reader α → Prop
  | digit : Repeated s digit
  | nameChar : Repeated s nameChar
  | item (after : Bool) : Repeated s (item s after)
  | piece (n : Nat) : Repeated s (piece s (atom s (classExpr s n) (groupReader s n)))
  | bar (n : Nat) : Repeated s
    ((token "|").skipThen (cut s.commits (branch s (atom s (classExpr s n) (groupReader s n)))))

theorem Repeated.consumes {α : Type} {p : Reader α} (repeated : Repeated s p) : p.Consumes := by
  cases repeated with
  | digit => exact consumes_digit
  | nameChar => exact consumes_nameChar
  | item after => exact fun takes => (takes_item.mp takes).shorter
  | piece n => exact consumes_piece
  | bar n => exact consumes_bar

/-- The alternatives of an atom that are switched off for a schema pattern. -/
inductive XPathAtom (s : Settings) (inner : Option (Reader Regex)) : Reader Atom → Prop
  | startAnchor : XPathAtom s inner ((token "^").as (.literal startMark))
  | endAnchor : XPathAtom s inner ((token "$").as (.literal endMark))
  | backreference : XPathAtom s inner (backreference s)
  | group : XPathAtom s inner ((enclosed s "(?:" inner ")").map .group)

namespace Reader.InheritedByGroups

variable {P : {α : Type} → Reader α → Prop} (inherited : InheritedByGroups s.commits P)
include inherited

theorem group {inner : Option (Reader Regex)} (inside : ∀ p ∈ inner, P p) {opening : String}
    (other : opening ≠ ")") : P ((enclosed s opening inner ")").map Atom.group) :=
  inherited.map (inherited.enclosed other inherited.closing inside) _

theorem xpathAtom {inner : Option (Reader Regex)} (inside : ∀ p ∈ inner, P p) {p : Reader Atom}
    (alternative : XPathAtom s inner p) : P p := by
  cases alternative with
  | startAnchor => exact inherited.letter "^" (by decide) _
  | endAnchor => exact inherited.letter "$" (by decide) _
  | backreference => exact inherited.backreference
  | group => exact inherited.group inside (by decide)

theorem atom {inner : Option (Reader Regex)} (inside : ∀ p ∈ inner, P p) :
    P (Pattern.atom s (Pattern.classExpr s n) inner) := by
  have switched {p q : Reader Atom} (before : P p) (alternative : XPathAtom s inner q) :
      P (p.orElse (guarded (s.dialect = .xpath) q)) :=
    inherited.switched before (inherited.xpathAtom inside alternative)
  have chars := inherited.orElse
    (inherited.map inherited.normalChar fun c => Atom.literal c.toNat) (inherited.charAtom n)
  unfold Pattern.atom Reader.firstOf
  exact inherited.orElse
    (switched (switched (switched (switched chars .startAnchor) .endAnchor) .backreference) .group)
    (inherited.group inside (by decide))

theorem piece {a : Reader Atom} (atom : P a) : P (Pattern.piece s a) :=
  inherited.recorded (inherited.map (inherited.pair atom (inherited.opt inherited.quantifier)) _)

theorem branch (atom : P (Pattern.atom s (Pattern.classExpr s n) (groupReader s n))) :
    P (Pattern.branch s (Pattern.atom s (Pattern.classExpr s n) (groupReader s n))) :=
  inherited.map (inherited.many consumes_piece (inherited.piece atom)) _

theorem branches (atom : P (Pattern.atom s (Pattern.classExpr s n) (groupReader s n))) :
    P (Pattern.branches s (Pattern.atom s (Pattern.classExpr s n) (groupReader s n))) := by
  have branch := inherited.branch atom
  have bar : P (Reader.token "|") := inherited.token (by decide)
  have others := inherited.skipThen bar (inherited.cut branch)
  exact inherited.map (inherited.pair branch (inherited.many consumes_bar others)) _

theorem regexp (n : Nat) : P (Pattern.regexp s n) := by
  induction n with
  | zero =>
    rw [regexp_eq]
    refine inherited.branches (inherited.atom fun p reader => ?_)
    cases reader
  | succ n ih =>
    rw [regexp_eq]
    refine inherited.branches (inherited.atom fun p reader => ?_)
    cases reader
    exact ih

theorem groupReader {n : Nat} {p : Reader Regex} (reader : p ∈ Pattern.groupReader s n) : P p := by
  cases n with
  | zero => cases reader
  | succ n =>
    cases reader
    exact inherited.regexp n

theorem whole (n : Nat) : P (Reader.thenSkip (Pattern.regexp s n) Reader.atEnd) :=
  inherited.thenSkip (inherited.regexp n) inherited.atEnd

end Reader.InheritedByGroups

inductive Production (s : Settings) : {α : Type} → Reader α → Prop
  | normalChar : Production s (normalChar s.dialect)
  | escapedChar : Production s (escapedChar s.dialect)
  | unescapedChar : Production s unescapedChar
  | classChar : Production s (classChar s.dialect)
  | digit : Production s digit
  | bound : Production s (bound s)
  | quantity : Production s (quantity s)
  | greedyQuantifier : Production s (greedyQuantifier s)
  | quantifier : Production s (quantifier s)
  | letterEscape : Production s letterEscape
  | nameChar : Production s nameChar
  | categoryOf (group : Unicode.CategoryGroup) : Production s (categoryOf s group.name group.letters)
  | category : Production s (category s)
  | block : Production s (block s)
  | property : Production s (property s)
  | classEscape : Production s (classEscape s)
  | endOfItems : Production s endOfItems
  | rangeTail : Production s rangeTail
  | charAfterSingle : Production s (charAfterSingle s.dialect)
  | endpoint : Production s (endpoint s.dialect)
  | charRange : Production s (charRange s)
  | loneChar (after : Bool) : Production s (loneChar s.dialect after)
  | item (after : Bool) : Production s (item s after)
  | items (started after : Bool) : Production s (items s started after)
  | positiveGroup : Production s (positiveGroup s)
  | negativeGroup : Production s (negativeGroup s)
  | charGroup (n : Nat) : Production s (charGroup s (classExpr s n))
  | classExpr (n : Nat) : Production s (classExpr s n)
  | charAtom (n : Nat) : Production s (charAtom s (classExpr s n))
  | backreference : Production s (backreference s)
  | atom (n : Nat) : Production s (atom s (classExpr s n) (groupReader s n))
  | piece (n : Nat) : Production s (piece s (atom s (classExpr s n) (groupReader s n)))
  | branch (n : Nat) : Production s (branch s (atom s (classExpr s n) (groupReader s n)))
  | regexp (n : Nat) : Production s (regexp s n)
  | whole (n : Nat) : Production s (Reader.thenSkip (regexp s n) atEnd)

theorem Production.has {P : {α : Type} → Reader α → Prop} (inherited : InheritedByGroups s.commits P)
    {α : Type} {p : Reader α} (production : Production s p) : P p := by
  have atom (n : Nat) : P (Pattern.atom s (Pattern.classExpr s n) (groupReader s n)) :=
    inherited.atom fun _ => inherited.groupReader
  cases production with
  | normalChar => exact inherited.normalChar
  | escapedChar => exact inherited.escapedChar
  | unescapedChar => exact inherited.unescapedChar (s := s)
  | classChar => exact inherited.classChar
  | digit => exact inherited.digit (s := s)
  | bound => exact inherited.bound
  | quantity => exact inherited.quantity
  | greedyQuantifier => exact inherited.greedyQuantifier
  | quantifier => exact inherited.quantifier
  | letterEscape => exact inherited.letterEscape (s := s)
  | nameChar => exact inherited.nameChar (s := s)
  | categoryOf group => exact inherited.categoryOf group
  | category => exact inherited.category
  | block => exact inherited.block
  | property => exact inherited.property
  | classEscape => exact inherited.classEscape
  | endOfItems => exact inherited.endOfItems (s := s)
  | rangeTail => exact inherited.rangeTail (s := s)
  | charAfterSingle => exact inherited.charAfterSingle
  | endpoint => exact inherited.endpoint
  | charRange => exact inherited.charRange
  | loneChar after => exact inherited.loneChar after
  | item after => exact inherited.item after
  | items started after => exact inherited.items rfl inherited.item started after
  | positiveGroup => exact inherited.positiveGroup
  | negativeGroup => exact inherited.negativeGroup
  | charGroup n => exact inherited.charGroup (inherited.classExpr n)
  | classExpr n => exact inherited.classExpr n
  | charAtom n => exact inherited.charAtom n
  | backreference => exact inherited.backreference
  | atom n => exact atom n
  | piece n => exact inherited.piece (atom n)
  | branch n => exact inherited.branch (atom n)
  | regexp n => exact inherited.regexp n
  | whole n => exact inherited.whole n

end SchemaRegex.Pattern

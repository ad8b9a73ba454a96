import SchemaRegex.Proofs.Pattern.ClassSyntax
import SchemaRegex.Proofs.Pattern.Completeness

/-!
# The syntax of patterns

A pattern as a tree that keeps every part as it is written. The trees of the grammar have the derived
texts, so a pattern is read exactly if it is the text of such a tree, and what is read is the tree
without the parts of its text (`parse_eq_ok_iff_tree`).
-/

namespace SchemaRegex.Pattern

inductive LeafSyntax where
  | character (c : Char)
  | charEscape (text : List Char) (c : Char)
  | classEscape (text : List Char) (set : CodepointSet)
  | classExpr (e : ClassSyntax)
  | wildcard
  | startAnchor
  | endAnchor

namespace LeafSyntax

def text : LeafSyntax → List Char
  | character c => [c]
  | charEscape w _ => w
  | classEscape w _ => w
  | classExpr e => e.text
  | wildcard => ['.']
  | startAnchor => ['^']
  | endAnchor => ['$']

def atom : LeafSyntax → Atom
  | character c => .literal c.toNat
  | charEscape _ c => .literal c.toNat
  | classEscape _ set => .set set
  | classExpr e => .set e.set
  | wildcard => .set .wildcard
  | startAnchor => .literal startMark
  | endAnchor => .literal endMark

def depth : LeafSyntax → Nat
  | classExpr e => e.depth
  | _ => 0

def WellFormed (d : Dialect) : LeafSyntax → Prop
  | character c => c ∉ d.metacharacters
  | charEscape w c => CharEscape d w c
  | classEscape w set => ClassEscape d w set
  | classExpr e => e.WellFormed d
  | wildcard => True
  | startAnchor | endAnchor => d = .xpath

end LeafSyntax

inductive QuantifierSyntax where
  | absent
  | greedy (text : List Char) (q : Quantifier)
  | reluctant (text : List Char) (q : Quantifier)

namespace QuantifierSyntax

def text : QuantifierSyntax → List Char
  | absent => []
  | greedy w _ => w
  | reluctant w _ => w ++ ['?']

def quantifier : QuantifierSyntax → Quantifier
  | absent => .once
  | greedy _ q | reluctant _ q => q

def WellFormed (d : Dialect) : QuantifierSyntax → Prop
  | absent => True
  | greedy w q => GreedyText w q
  | reluctant w q => d = .xpath ∧ GreedyText w q

end QuantifierSyntax

/-- What is left of a pattern: nothing, a piece and what is behind it, or a bar and what is behind it. A
group may be marked as one that is not counted. -/
inductive PatternSyntax where
  | empty
  | leaf (atom : LeafSyntax) (quantifier : QuantifierSyntax) (rest : PatternSyntax)
  | group (marked : Bool) (inside : PatternSyntax) (quantifier : QuantifierSyntax)
    (rest : PatternSyntax)
  | bar (rest : PatternSyntax)

def prepend (p : Piece) : List Branch → List Branch
  | [] => [⟨[p]⟩]
  | ⟨ps⟩ :: bs => ⟨p :: ps⟩ :: bs

namespace PatternSyntax

def opening (marked : Bool) : List Char := if marked then ['(', '?', ':'] else ['(']

def text : PatternSyntax → List Char
  | empty => []
  | leaf atom quantifier rest => atom.text ++ quantifier.text ++ rest.text
  | group marked inside quantifier rest =>
    opening marked ++ inside.text ++ [')'] ++ quantifier.text ++ rest.text
  | bar rest => '|' :: rest.text

def branches : PatternSyntax → List Branch
  | empty => [⟨[]⟩]
  | leaf atom quantifier rest => prepend ⟨atom.atom, quantifier.quantifier⟩ rest.branches
  | group _ inside quantifier rest =>
    prepend ⟨.group ⟨inside.branches⟩, quantifier.quantifier⟩ rest.branches
  | bar rest => ⟨[]⟩ :: rest.branches

def regex (e : PatternSyntax) : Regex := ⟨e.branches⟩

def depth : PatternSyntax → Nat
  | empty => 0
  | leaf atom _ rest => max atom.depth rest.depth
  | group _ inside _ rest => max (inside.depth + 1) rest.depth
  | bar rest => rest.depth

def WellFormed (d : Dialect) : PatternSyntax → Prop
  | empty => True
  | leaf atom quantifier rest => atom.WellFormed d ∧ quantifier.WellFormed d ∧ rest.WellFormed d
  | group marked inside quantifier rest =>
    (marked = true → d = .xpath) ∧ inside.WellFormed d ∧ quantifier.WellFormed d ∧ rest.WellFormed d
  | bar rest => rest.WellFormed d

structure Derives (d : Dialect) (n : Nat) (w : List Char) (r : Regex) (e : PatternSyntax) : Prop where
  wellFormed : e.WellFormed d
  depth : e.depth ≤ n
  text : w = e.text
  regex : r = e.regex

end PatternSyntax

variable {d : Dialect} {n : Nat}

theorem LeafSyntax.derives {l : LeafSyntax} (formed : l.WellFormed d) (deep : l.depth ≤ n) :
    DerivesAtom d n l.text l.atom := by
  cases l with
  | character c => exact .character formed
  | charEscape w c => exact .charEscape formed
  | classEscape w set => exact .classEscape formed
  | classExpr e =>
    have text := classText_iff_tree.mpr ⟨e, formed, deep, (List.append_nil _).symm, rfl⟩
    exact .classExpr (takes_classExpr.mpr text)
  | wildcard => exact .wildcard
  | startAnchor => exact .startAnchor formed
  | endAnchor => exact .endAnchor formed

theorem QuantifierSyntax.derives {q : QuantifierSyntax} (formed : q.WellFormed d) {w : List Char}
    {x : Atom} (atom : DerivesAtom d n w x) : DerivesPiece d n (w ++ q.text) ⟨x, q.quantifier⟩ := by
  cases q with
  | absent => exact (List.append_nil w).symm ▸ .once atom
  | greedy u q => exact .quantified atom (.greedy formed)
  | reluctant u q => exact .quantified atom (.reluctant formed.1 formed.2)

theorem DerivesPiece.prepend {u w : List Char} {p : Piece} {bs : List Branch}
    (piece : DerivesPiece d n u p) (rest : DerivesRegex d n w ⟨bs⟩) :
    DerivesRegex d n (u ++ w) ⟨Pattern.prepend p bs⟩ := by
  cases rest with
  | @branch _ _ b only =>
    cases b
    exact .branch (.piece piece only)
  | @alternative _ _ _ b _ first others =>
    cases b
    rw [← List.append_assoc]
    exact .alternative (.piece piece first) others

theorem PatternSyntax.derives {e : PatternSyntax} (formed : e.WellFormed d) (deep : e.depth ≤ n) :
    DerivesRegex d n e.text e.regex := by
  induction e generalizing n with
  | empty => exact .branch .empty
  | leaf atom quantifier rest ih =>
    obtain ⟨atomFormed, quantifierFormed, restFormed⟩ := formed
    obtain ⟨atomDeep, restDeep⟩ := Nat.max_le.mp deep
    have piece := QuantifierSyntax.derives quantifierFormed (LeafSyntax.derives atomFormed atomDeep)
    exact piece.prepend (ih restFormed restDeep)
  | group marked inside quantifier rest ihInside ihRest =>
    obtain ⟨xpath, insideFormed, quantifierFormed, restFormed⟩ := formed
    obtain ⟨insideDeep, restDeep⟩ := Nat.max_le.mp deep
    obtain ⟨m, rfl⟩ := Nat.exists_eq_add_of_le' (Nat.le_of_add_left_le insideDeep)
    have regex := ihInside insideFormed (Nat.le_of_add_le_add_right insideDeep)
    have atom : DerivesAtom d (m + 1) (opening marked ++ inside.text ++ [')']) (.group inside.regex) := by
      cases marked with
      | false => exact .group regex
      | true => exact .plainGroup (xpath rfl) regex
    exact (QuantifierSyntax.derives quantifierFormed atom).prepend (ihRest restFormed restDeep)
  | bar rest ih => exact .alternative .empty (ih formed deep)

theorem LeafSyntax.exists_of_derives {w : List Char} {x : Atom} (atom : DerivesAtom d n w x) :
    (∃ l : LeafSyntax, l.WellFormed d ∧ l.depth ≤ n ∧ w = l.text ∧ x = l.atom) ∨
      ∃ (marked : Bool) (m : Nat) (u : List Char) (r : Regex), (marked = true → d = .xpath) ∧
        n = m + 1 ∧ DerivesRegex d m u r ∧ w = PatternSyntax.opening marked ++ u ++ [')'] ∧
        x = .group r := by
  cases atom with
  | character plain => exact .inl ⟨.character _, plain, Nat.zero_le n, rfl, rfl⟩
  | charEscape escape => exact .inl ⟨.charEscape _ _, escape, Nat.zero_le n, rfl, rfl⟩
  | classEscape escape => exact .inl ⟨.classEscape _ _, escape, Nat.zero_le n, rfl, rfl⟩
  | classExpr text =>
    obtain ⟨e, formed, deep, same, value⟩ := classText_iff_tree.mp (takes_classExpr.mp text)
    rw [List.append_nil] at same
    exact .inl ⟨.classExpr e, formed, deep, same, congrArg Atom.set value⟩
  | wildcard => exact .inl ⟨.wildcard, trivial, Nat.zero_le n, rfl, rfl⟩
  | group regex => exact .inr ⟨false, _, _, _, (fun marked => by cases marked), rfl, regex, rfl, rfl⟩
  | plainGroup xpath regex => exact .inr ⟨true, _, _, _, fun _ => xpath, rfl, regex, rfl, rfl⟩
  | startAnchor xpath => exact .inl ⟨.startAnchor, xpath, Nat.zero_le n, rfl, rfl⟩
  | endAnchor xpath => exact .inl ⟨.endAnchor, xpath, Nat.zero_le n, rfl, rfl⟩

theorem QuantifierSyntax.exists_of_derives {w : List Char} {p : Piece} (piece : DerivesPiece d n w p) :
    ∃ (q : QuantifierSyntax) (u : List Char) (x : Atom), q.WellFormed d ∧ DerivesAtom d n u x ∧
      w = u ++ q.text ∧ p = ⟨x, q.quantifier⟩ := by
  cases piece with
  | once atom => exact ⟨.absent, _, _, trivial, atom, (List.append_nil _).symm, rfl⟩
  | quantified atom text =>
    cases text with
    | greedy text => exact ⟨.greedy _ _, _, _, text, atom, rfl, rfl⟩
    | reluctant xpath text => exact ⟨.reluctant _ _, _, _, ⟨xpath, text⟩, atom, rfl, rfl⟩

/-- A piece goes in front of a tree as a leaf or as a group. -/
theorem PatternSyntax.exists_prepend {w : List Char} {p : Piece}
    (inside : ∀ m, n = m + 1 → ∀ {w r}, DerivesRegex d m w r → ∃ e : PatternSyntax, e.Derives d m w r)
    (piece : DerivesPiece d n w p) {rest : PatternSyntax} (formed : rest.WellFormed d)
    (deep : rest.depth ≤ n) : ∃ e : PatternSyntax, e.WellFormed d ∧ e.depth ≤ n ∧
      w ++ rest.text = e.text ∧ prepend p rest.branches = e.branches := by
  obtain ⟨q, u, x, quantifierFormed, atom, same, value⟩ := QuantifierSyntax.exists_of_derives piece
  subst same value
  obtain ⟨l, leafFormed, leafDeep, same, value⟩ | ⟨marked, m, v, r, xpath, depth, regex, same, value⟩ :=
    LeafSyntax.exists_of_derives atom
  · subst same value
    exact ⟨.leaf l q rest, ⟨leafFormed, quantifierFormed, formed⟩, Nat.max_le.mpr ⟨leafDeep, deep⟩,
      rfl, rfl⟩
  · obtain ⟨e, insideFormed, insideDeep, text, tree⟩ := inside m depth regex
    subst same value depth text tree
    exact ⟨.group marked e q rest, ⟨xpath, insideFormed, quantifierFormed, formed⟩,
      Nat.max_le.mpr ⟨Nat.add_le_add_right insideDeep 1, deep⟩, rfl, rfl⟩

/-- A branch goes in front of a tree whose first branch is empty. -/
theorem PatternSyntax.exists_branch {w : List Char} {ps : List Piece}
    (inside : ∀ m, n = m + 1 → ∀ {w r}, DerivesRegex d m w r → ∃ e : PatternSyntax, e.Derives d m w r)
    (branch : DerivesBranch d n w ⟨ps⟩) (rest : PatternSyntax) {bs : List Branch}
    (formed : rest.WellFormed d) (deep : rest.depth ≤ n) (first : rest.branches = ⟨[]⟩ :: bs) :
    ∃ e : PatternSyntax, e.WellFormed d ∧ e.depth ≤ n ∧ w ++ rest.text = e.text ∧
      e.branches = ⟨ps⟩ :: bs := by
  induction ps generalizing w with
  | nil =>
    cases branch
    exact ⟨rest, formed, deep, rfl, first⟩
  | cons p ps ih =>
    cases branch with
    | piece piece others =>
      obtain ⟨f, formed, deep, text, branches⟩ := ih others
      obtain ⟨e, formed, deep, more, same⟩ := exists_prepend inside piece formed deep
      refine ⟨e, formed, deep, ?_, ?_⟩
      · rw [List.append_assoc, text, more]
      · rw [← same, branches, prepend]

theorem PatternSyntax.exists_of_derives {w : List Char} {r : Regex}
    (inside : ∀ m, n = m + 1 → ∀ {w r}, DerivesRegex d m w r → ∃ e : PatternSyntax, e.Derives d m w r)
    (regex : DerivesRegex d n w r) : ∃ e : PatternSyntax, e.Derives d n w r := by
  obtain ⟨bs⟩ := r
  induction bs generalizing w with
  | nil => cases regex
  | cons b bs ih =>
    cases b with
    | mk ps =>
    cases regex with
    | branch only =>
      obtain ⟨e, formed, deep, text, branches⟩ :=
        exists_branch inside only .empty trivial (Nat.zero_le n) rfl
      exact ⟨e, formed, deep, by rw [← text, PatternSyntax.text, List.append_nil],
        congrArg Regex.mk branches.symm⟩
    | alternative first others =>
      obtain ⟨f, formed, deep, text, tree⟩ := ih others
      injection tree with tree
      obtain ⟨e, formed, deep, more, branches⟩ :=
        exists_branch inside first (.bar f) formed deep rfl
      refine ⟨e, formed, deep, ?_, ?_⟩
      · rw [← more, PatternSyntax.text, text]
      · rw [PatternSyntax.regex, branches, tree]

/-- The derived texts are those of the trees. -/
theorem derives_iff_tree {w : List Char} {r : Regex} :
    DerivesRegex d n w r ↔ ∃ e : PatternSyntax, e.Derives d n w r := by
  constructor
  · intro regex
    induction n generalizing w r with
    | zero =>
      refine PatternSyntax.exists_of_derives (fun m depth => ?_) regex
      cases depth
    | succ n ih =>
      refine PatternSyntax.exists_of_derives (fun m depth => ?_) regex
      cases depth
      exact ih
  · intro given
    obtain ⟨e, formed, deep, text, tree⟩ := given
    rw [text, tree]
    exact e.derives formed deep

theorem parse_eq_ok_iff_tree {s : Settings} {text : String} {r : Regex} :
    parse s text = .ok r ↔
      ∃ e : PatternSyntax, e.Derives s.dialect s.nestLimit text.toList r :=
  parse_eq_ok.trans derives_iff_tree

end SchemaRegex.Pattern

import SchemaRegex.Proofs.Pattern.ClassText

/-!
# The syntax of class expressions

A class expression as a tree that keeps every item as it is written. Which trees there are is said by
the rules of the grammar, for each item by what stands before and behind it, without regard to the
order in which a reader tries things. The reader takes the texts of these trees and no others, and
gives the set that a tree denotes (`classExpr_reads_tree`).
-/

namespace SchemaRegex.Pattern

open Reader

inductive ClassItem where
  | single (text : List Char) (c : Char)
  | range (firstText : List Char) (first : Char) (lastText : List Char) (last : Char)
  | escape (text : List Char) (set : CodepointSet)

namespace ClassItem

def text : ClassItem → List Char
  | single w _ => w
  | range u _ w _ => u ++ '-' :: w
  | escape w _ => w

def Denotes : ClassItem → Nat → Prop
  | single _ a, c => c = a.toNat
  | range _ a _ b, c => a.toNat ≤ c ∧ c ≤ b.toNat
  | escape _ set, c => c ∈ set

/-- The text is one for what the item stands for. The ends of a range are in order, and neither is a
hyphen without a backslash. -/
def WellFormed (d : Dialect) : ClassItem → Prop
  | single w c => ClassCharText d w c
  | range u a w b =>
    ClassCharText d u a ∧ ClassCharText d w b ∧ u ≠ ['-'] ∧ w ≠ ['-'] ∧ a.toNat ≤ b.toNat
  | escape w set => ClassEscape d w set

def isSingle : ClassItem → Bool
  | single _ _ => true
  | range _ _ _ _ | escape _ _ => false

/-- The rules for hyphens. A single character may stand before a hyphen only if a bracket comes next;
and it may be a hyphen only at the start, behind a range or an escape, or before the closing
bracket. -/
def FitsBetween (item : ClassItem) (previous : Option ClassItem) (behind : List Char) : Prop :=
  item.isSingle = true →
    (∀ v, behind = '-' :: v → ['['] <+: v ∨ [']'] <+: v) ∧
    (item.text = ['-'] →
      previous = none ∨ (∃ p, previous = some p ∧ p.isSingle = false) ∨ [']'] <+: behind)

end ClassItem

def itemsText (items : List ClassItem) : List Char := items.flatMap ClassItem.text

def FitTogether (previous : Option ClassItem) : List ClassItem → List Char → Prop
  | [], _ => True
  | item :: items, behind =>
    item.FitsBetween previous (itemsText items ++ behind) ∧ FitTogether (some item) items behind

structure ClassGroup where
  negated : Bool
  items : List ClassItem

namespace ClassGroup

def text (g : ClassGroup) : List Char :=
  if g.negated then '^' :: itemsText g.items else itemsText g.items

def Denotes (g : ClassGroup) (c : Nat) : Prop :=
  if g.negated then c ≤ lastCodepoint ∧ ¬ ∃ item ∈ g.items, item.Denotes c
  else ∃ item ∈ g.items, item.Denotes c

/-- There are items. Without a negation the text of the first does not start with an unescaped circumflex,
be it that character alone or a range from it on. -/
structure WellFormed (d : Dialect) (g : ClassGroup) (behind : List Char) : Prop where
  nonempty : g.items ≠ []
  items : ∀ item ∈ g.items, item.WellFormed d
  fit : FitTogether none g.items behind
  noCircumflex : g.negated = false → ∀ item ∈ g.items.head?, ¬ ['^'] <+: item.text

end ClassGroup

inductive ClassSyntax where
  | plain (group : ClassGroup)
  | minus (group : ClassGroup) (except : ClassSyntax)

namespace ClassSyntax

def text : ClassSyntax → List Char
  | plain group => '[' :: group.text ++ [']']
  | minus group except => '[' :: group.text ++ '-' :: except.text ++ [']']

def depth : ClassSyntax → Nat
  | plain _ => 1
  | minus _ except => except.depth + 1

def WellFormed (d : Dialect) : ClassSyntax → Prop
  | plain group => group.WellFormed d [']']
  | minus group except => group.WellFormed d ('-' :: except.text ++ [']']) ∧ except.WellFormed d

def Denotes : ClassSyntax → Nat → Prop
  | plain group, c => group.Denotes c
  | minus group except, c => group.Denotes c ∧ ¬ except.Denotes c

end ClassSyntax

variable {d : Dialect}

namespace ClassItem

def set : ClassItem → CodepointSet
  | single _ c => .singleton c.toNat
  | range _ a _ b => .ofRanges [⟨a.toNat, b.toNat⟩]
  | escape _ set => set

theorem mem_set {item : ClassItem} {c : Nat} : c ∈ item.set ↔ item.Denotes c := by
  cases item with
  | single w a =>
    have bound := char_toNat_le_lastCodepoint a
    simp only [set, Denotes, CodepointSet.mem_singleton]
    omega
  | range u a w b =>
    have bound := char_toNat_le_lastCodepoint b
    simp only [set, Denotes, CodepointSet.mem_ofRanges, List.mem_singleton, exists_eq_left]
    omega
  | escape w s => exact Iff.rfl

theorem start {item : ClassItem} (formed : item.WellFormed d) :
    ∃ a x, item.text = a :: x ∧ a ≠ '[' ∧ a ≠ ']' ∧ (a = '-' → item.isSingle = true ∧ x = []) := by
  cases item with
  | single w c =>
    obtain ⟨a, x, same, noOpening, noClosing⟩ := ClassCharText.start formed
    refine ⟨a, x, same, noOpening, noClosing, fun hyphen => ⟨rfl, ?_⟩⟩
    have only := (ClassCharText.of_hyphen formed (by rw [List.append_nil, same, hyphen])).1
    rw [same] at only
    exact (List.cons.inj only).2
  | range u a w b =>
    obtain ⟨first, _, noHyphen, _⟩ := formed
    obtain ⟨e, x, same, noOpening, noClosing⟩ := first.start
    refine ⟨e, x ++ '-' :: w, by simp [text, same], noOpening, noClosing, fun hyphen => ?_⟩
    exact absurd (first.of_hyphen (by rw [List.append_nil, same, hyphen])).1 noHyphen
  | escape w s =>
    obtain ⟨e, x, same, _⟩ := ClassEscape.start formed
    exact ⟨'\\', e :: x, same, by decide, by decide, fun hyphen => by simp at hyphen⟩

end ClassItem

/-- An item as the reader comes to it, by whether a single character stands before it. -/
theorem item_iff_tree {after single : Bool} {t v : List Char} {set : CodepointSet} :
    Item d after t set single v ↔ ∃ item : ClassItem, item.WellFormed d ∧ t = item.text ++ v ∧
      set = item.set ∧ single = item.isSingle ∧ (item.isSingle = true →
        ¬ RangeAhead v ∧ (after = true → item.text = ['-'] → Ends v)) := by
  constructor
  · intro item
    cases item with
    | @single w _ c text noRange hyphen =>
      exact ⟨.single w c, text, rfl, rfl, rfl, fun _ => ⟨noRange, hyphen⟩⟩
    | @range u w _ a b first last firstNoHyphen lastNoHyphen ordered =>
      exact ⟨.range u a w b, ⟨first, last, firstNoHyphen, lastNoHyphen, ordered⟩, rfl, rfl, rfl,
        fun single => by cases single⟩
    | @escape w _ set text => exact ⟨.escape w set, text, rfl, rfl, rfl, fun single => by cases single⟩
  · intro given
    obtain ⟨item, formed, same, value, kind, rules⟩ := given
    subst same value kind
    cases item with
    | single w c => exact .single formed (rules rfl).1 (rules rfl).2
    | range u a w b =>
      obtain ⟨first, last, firstNoHyphen, lastNoHyphen, ordered⟩ := formed
      exact .range first last firstNoHyphen lastNoHyphen ordered
    | escape w set => exact .escape formed

private theorem Ends.not_opening {v : List Char} (ends : Ends v) : ¬ ['['] <+: v := by
  obtain ⟨u, same⟩ | ⟨u, same⟩ := ends <;> simp [← same]

private theorem not_opening_itemsText {items : List ClassItem} {v : List Char}
    (formed : ∀ item ∈ items, item.WellFormed d) (noOpening : ¬ ['['] <+: v) :
    ¬ ['['] <+: itemsText items ++ v := by
  cases items with
  | nil => exact noOpening
  | cons item items =>
    obtain ⟨a, x, same, other, _⟩ := ClassItem.start (formed item List.mem_cons_self)
    simp [itemsText, same, other.symm]

theorem not_ends_itemsText {item : ClassItem} {items : List ClassItem} {v : List Char}
    (formed : ∀ i ∈ item :: items, i.WellFormed d) (noOpening : ¬ ['['] <+: v) :
    ¬ Ends (itemsText (item :: items) ++ v) := by
  obtain ⟨a, x, same, _, noClosing, hyphen⟩ := ClassItem.start (formed item List.mem_cons_self)
  have text : itemsText (item :: items) ++ v = a :: (x ++ (itemsText items ++ v)) := by
    simp [itemsText, same]
  rw [text]
  intro given
  obtain ⟨u, front⟩ | ⟨u, front⟩ := given
  · injection front with first rest
    obtain ⟨_, none⟩ := hyphen first.symm
    rw [none] at rest
    exact not_opening_itemsText (fun i member => formed i (List.mem_cons_of_mem item member)) noOpening
      ⟨u, rest⟩
  · injection front with first _
    exact noClosing first.symm

theorem RangeAhead.of_two_hyphens {u : List Char} : RangeAhead ('-' :: '-' :: u) :=
  ⟨'-', u, rfl, by decide, by decide⟩

private theorem Ends.ne_nil {v : List Char} (ends : Ends v) : v ≠ [] := by
  intro none
  obtain ⟨u, same⟩ | ⟨u, same⟩ := ends <;> simp [none] at same

private theorem Items.two_le_length {after : Bool} {t v : List Char} {sets : List CodepointSet}
    (items : Items d after t sets v) : 2 ≤ t.length := by
  induction items with
  | last item ends =>
    have shorter := item.shorter
    have nonempty := List.length_pos_iff.mpr ends.ne_nil
    omega
  | more item _ _ ih =>
    have shorter := item.shorter
    omega

/-- Before the end of the items a hyphen is only allowed with a bracket behind it. -/
theorem Ends.bracket_behind_hyphen {u v : List Char} (ends : Ends u) (hyphen : u = '-' :: v) :
    ['['] <+: v ∨ [']'] <+: v := by
  obtain ⟨x, same⟩ | ⟨x, same⟩ := ends
  · rw [hyphen] at same
    cases same
    exact .inl ⟨x, rfl⟩
  · rw [hyphen] at same
    cases same

private theorem Items.bracket_behind_hyphen {after : Bool} {u v w : List Char} {sets : List CodepointSet}
    (items : Items d after u sets w) (noRange : ¬ RangeAhead u) (hyphen : u = '-' :: v) :
    ['['] <+: v ∨ [']'] <+: v := by
  cases v with
  | nil =>
    have long := items.two_le_length
    rw [hyphen] at long
    simp at long
  | cons c v =>
    by_cases opening : c = '['
    · exact .inl ⟨v, by simp [opening]⟩
    by_cases closing : c = ']'
    · exact .inr ⟨v, by simp [closing]⟩
    exact absurd ⟨c, v, hyphen, opening, closing⟩ noRange

private theorem hyphen_place {previous : Option ClassItem} {behind : List Char}
    (closing : previous.any ClassItem.isSingle = true → [']'] <+: behind) :
    previous = none ∨ (∃ p, previous = some p ∧ p.isSingle = false) ∨ [']'] <+: behind := by
  cases previous with
  | none => exact .inl rfl
  | some p =>
    cases single : p.isSingle with
    | false => exact .inr (.inl ⟨p, rfl, single⟩)
    | true => exact .inr (.inr (closing single))

/-- The items that the reader finds obey the rules for hyphens. In the induction no range starts behind
a single character that comes before the items. -/
theorem Items.exists_trees {after : Bool} {t v : List Char} {sets : List CodepointSet}
    (read : Items d after t sets v) {previous : Option ClassItem}
    (kind : after = previous.any ClassItem.isSingle) (noRange : after = true → ¬ RangeAhead t) :
    ∃ items : List ClassItem, items ≠ [] ∧ t = itemsText items ++ v ∧
      (∀ item ∈ items, item.WellFormed d) ∧ FitTogether previous items v ∧
      sets = items.map ClassItem.set := by
  induction read generalizing previous with
  | @last after single t v set item ends =>
    obtain ⟨item, formed, same, value, _, rules⟩ := item_iff_tree.mp item
    refine ⟨[item], List.cons_ne_nil _ _, by simp [itemsText, same],
      List.forall_mem_singleton.mpr formed, ⟨fun single => ⟨?_, fun hyphen => ?_⟩, trivial⟩,
      by rw [value]; rfl⟩
    · exact fun u front => ends.bracket_behind_hyphen front
    · refine hyphen_place fun behind => ?_
      obtain ⟨x, front⟩ | closing := ends
      · refine absurd ?_ (noRange (kind.trans behind))
        rw [same, hyphen, ← front]
        exact .of_two_hyphens
      · exact closing
  | @more after single t u v set sets item goesOn others ih =>
    obtain ⟨item, formed, same, value, kindItem, rules⟩ := item_iff_tree.mp item
    have kindNext : single = (some item).any ClassItem.isSingle := by rw [kindItem, Option.any_some]
    obtain ⟨items, _, text, all, fit, values⟩ :=
      ih kindNext (fun behind => (rules (kindItem ▸ behind)).1)
    refine ⟨item :: items, List.cons_ne_nil _ _, by simp [itemsText, same, text],
      List.forall_mem_cons.mpr ⟨formed, all⟩, ⟨fun single => ⟨?_, fun hyphen => ?_⟩, fit⟩,
      by rw [value, values]; rfl⟩
    · rw [← text]
      exact fun w front => others.bracket_behind_hyphen (rules single).1 front
    · refine hyphen_place fun behind => ?_
      exact absurd ((rules single).2 (kind.trans behind) hyphen) goesOn

theorem Item.of_tree {item : ClassItem} {previous : Option ClassItem} {v : List Char}
    (formed : item.WellFormed d) (fits : item.FitsBetween previous v) :
    Item d (previous.any ClassItem.isSingle) (item.text ++ v) item.set item.isSingle v := by
  refine item_iff_tree.mpr ⟨item, formed, rfl, rfl, rfl, fun single => ?_⟩
  obtain ⟨brackets, places⟩ := fits single
  constructor
  · intro ahead
    obtain ⟨c, x, front, noOpening, noClosing⟩ := ahead
    obtain ⟨_, same⟩ | ⟨_, same⟩ := brackets _ front
    · exact noOpening (List.cons.inj same).1.symm
    · exact noClosing (List.cons.inj same).1.symm
  · intro behind hyphen
    obtain none | ⟨p, same, other⟩ | closing := places hyphen
    · rw [none] at behind
      cases behind
    · rw [same, Option.any_some, other] at behind
      cases behind
    · exact .inr closing

private theorem Items.of_trees {items : List ClassItem} {v : List Char} (nonempty : items ≠ [])
    (formed : ∀ item ∈ items, item.WellFormed d) (ends : Ends v) {previous : Option ClassItem}
    (fit : FitTogether previous items v) :
    Items d (previous.any ClassItem.isSingle) (itemsText items ++ v) (items.map ClassItem.set) v := by
  induction items generalizing previous with
  | nil => contradiction
  | cons item items ih =>
    obtain ⟨here, later⟩ := fit
    have read := Item.of_tree (formed item List.mem_cons_self) here
    have text : itemsText (item :: items) ++ v = item.text ++ (itemsText items ++ v) := by
      simp [itemsText]
    rw [text, List.map_cons]
    cases items with
    | nil => exact .last read ends
    | cons next items =>
      have others : ∀ i ∈ next :: items, i.WellFormed d :=
        fun i member => formed i (List.mem_cons_of_mem item member)
      exact .more read (not_ends_itemsText others ends.not_opening)
        (ih (List.cons_ne_nil _ _) others later)

def ClassGroup.set (g : ClassGroup) : CodepointSet :=
  let all := CodepointSet.unionAll (g.items.map ClassItem.set)
  if g.negated then all.complement else all

private theorem ClassGroup.mem_set {g : ClassGroup} {c : Nat} : c ∈ g.set ↔ g.Denotes c := by
  have all : c ∈ CodepointSet.unionAll (g.items.map ClassItem.set) ↔
      ∃ item ∈ g.items, item.Denotes c := by
    rw [CodepointSet.mem_unionAll]
    constructor
    · intro given
      obtain ⟨set, member, inside⟩ := given
      obtain ⟨item, listed, same⟩ := List.mem_map.mp member
      exact ⟨item, listed, ClassItem.mem_set.mp (same ▸ inside)⟩
    · intro given
      obtain ⟨item, listed, denotes⟩ := given
      exact ⟨item.set, List.mem_map_of_mem listed, ClassItem.mem_set.mpr denotes⟩
  unfold ClassGroup.set ClassGroup.Denotes
  cases g.negated with
  | false => exact all
  | true => exact CodepointSet.mem_complement.trans (and_congr_right fun _ => not_congr all)

theorem circumflex_iff {items : List ClassItem} {v : List Char} (nonempty : items ≠ [])
    (formed : ∀ item ∈ items, item.WellFormed d) :
    ['^'] <+: itemsText items ++ v ↔ ∃ item ∈ items.head?, ['^'] <+: item.text := by
  cases items with
  | nil => contradiction
  | cons item items =>
    obtain ⟨a, x, same, _⟩ := ClassItem.start (formed item List.mem_cons_self)
    simp [itemsText, same]

private theorem group_iff_tree {t v : List Char} {set : CodepointSet} (ends : Ends v) :
    Group d t set v ↔ ∃ g : ClassGroup, g.WellFormed d v ∧ t = g.text ++ v ∧ set = g.set := by
  constructor
  · intro group
    have first : false = (none : Option ClassItem).any ClassItem.isSingle := rfl
    cases group with
    | @positive t _ sets start read =>
      obtain ⟨items, nonempty, same, formed, fit, values⟩ :=
        read.exists_trees first (fun behind => by cases behind)
      refine ⟨⟨false, items⟩, ⟨nonempty, formed, fit, fun _ item head circumflex => ?_⟩, same, ?_⟩
      · rw [same] at start
        exact start ((circumflex_iff nonempty formed).mpr ⟨item, head, circumflex⟩)
      · rw [values]
        rfl
    | @negative t _ sets read =>
      obtain ⟨items, nonempty, same, formed, fit, values⟩ :=
        read.exists_trees first (fun behind => by cases behind)
      refine ⟨⟨true, items⟩, ⟨nonempty, formed, fit, fun positive => by cases positive⟩, ?_, ?_⟩
      · rw [same]
        rfl
      · rw [values]
        rfl
  · intro given
    obtain ⟨⟨negated, items⟩, ⟨nonempty, formed, fit, noCircumflex⟩, same, value⟩ := given
    have read := Items.of_trees nonempty formed ends fit
    subst same value
    cases negated with
    | false =>
      refine .positive (fun front => ?_) read
      obtain ⟨item, head, circumflex⟩ := (circumflex_iff nonempty formed).mp front
      exact noCircumflex rfl item head circumflex
    | true => exact .negative read

/-- Of what is behind a group only the end of the items matters. -/
theorem group_iff_tree_of_sameEnd {t v z : List Char} {set : CodepointSet} (ends : Ends z)
    (same : SameEnd v z) :
    Group d t set v ↔ ∃ g : ClassGroup, g.WellFormed d z ∧ t = g.text ++ v ∧ set = g.set := by
  constructor
  · intro group
    obtain ⟨w, front, change⟩ := group.change_rest
    obtain ⟨g, formed, text, value⟩ := (group_iff_tree ends).mp (change z same)
    exact ⟨g, formed, by rw [front, List.append_cancel_right text], value⟩
  · intro given
    obtain ⟨g, formed, text, value⟩ := given
    obtain ⟨w, front, change⟩ := ((group_iff_tree ends).mpr ⟨g, formed, rfl, value⟩).change_rest
    have swapped : SameEnd z v := same.imp And.symm And.symm
    rw [text, List.append_cancel_right front]
    exact change v swapped

namespace ClassSyntax

def set : ClassSyntax → CodepointSet
  | plain group => group.set
  | minus group except => group.set.diff except.set

theorem mem_set {e : ClassSyntax} {c : Nat} : c ∈ e.set ↔ e.Denotes c := by
  induction e with
  | plain group => exact ClassGroup.mem_set
  | minus group except ih => rw [set, CodepointSet.mem_diff, ClassGroup.mem_set, ih, Denotes]

theorem opening (e : ClassSyntax) : ['['] <+: e.text := by
  cases e <;> simp [text]

end ClassSyntax

private theorem ends_closing (v : List Char) : Ends (']' :: v) := .inr ⟨v, rfl⟩

private theorem ends_minus {e : ClassSyntax} (v : List Char) : Ends ('-' :: e.text ++ v) := by
  obtain ⟨x, same⟩ := e.opening
  exact .inl ⟨x ++ v, by simp [← same]⟩

private theorem sameEnd_minus {e : ClassSyntax} (u v : List Char) :
    SameEnd ('-' :: e.text ++ u) ('-' :: e.text ++ v) := by
  obtain ⟨x, same⟩ := e.opening
  exact .inr ⟨⟨x ++ u, by simp [← same]⟩, ⟨x ++ v, by simp [← same]⟩⟩

theorem classText_iff_tree {n : Nat} {t v : List Char} {set : CodepointSet} :
    ClassText d n t set v ↔
      ∃ e : ClassSyntax, e.WellFormed d ∧ e.depth ≤ n ∧ t = e.text ++ v ∧ set = e.set := by
  constructor
  · intro text
    induction text with
    | @group n t v set group =>
      have same : SameEnd (']' :: v) [']'] := .inl ⟨⟨v, rfl⟩, ⟨[], rfl⟩⟩
      obtain ⟨g, formed, front, value⟩ := (group_iff_tree_of_sameEnd (ends_closing []) same).mp group
      refine ⟨.plain g, formed, Nat.le_add_left 1 n, ?_, value⟩
      rw [front]
      simp [ClassSyntax.text]
    | @minus n t u v set except group _ ih =>
      obtain ⟨e, formed, deep, more, value⟩ := ih
      rw [more] at group
      obtain ⟨g, groupFormed, front, groupValue⟩ :=
        (group_iff_tree_of_sameEnd (ends_minus [']']) (sameEnd_minus (']' :: v) [']'])).mp group
      refine ⟨.minus g e, ⟨groupFormed, formed⟩, Nat.add_le_add_right deep 1, ?_, ?_⟩
      · rw [front]
        simp [ClassSyntax.text]
      · rw [value, groupValue]
        rfl
  · intro given
    obtain ⟨e, formed, deep, same, value⟩ := given
    subst same value
    induction e generalizing n v with
    | plain g =>
      obtain ⟨m, rfl⟩ := Nat.exists_eq_add_of_le' deep
      have same : SameEnd (']' :: v) [']'] := .inl ⟨⟨v, rfl⟩, ⟨[], rfl⟩⟩
      have group := (group_iff_tree_of_sameEnd (ends_closing []) same).mpr ⟨g, formed, rfl, rfl⟩
      simpa [ClassSyntax.text, ClassSyntax.depth, ClassSyntax.set] using ClassText.group (n := m) group
    | minus g e ih =>
      obtain ⟨m, rfl⟩ := Nat.exists_eq_add_of_le' (Nat.le_of_add_left_le deep)
      have group := (group_iff_tree_of_sameEnd (ends_minus [']'])
        (sameEnd_minus (']' :: v) [']'])).mpr ⟨g, formed.1, rfl, rfl⟩
      have inner := ih (n := m) (v := ']' :: v) formed.2 (Nat.le_of_add_le_add_right deep)
      simpa [ClassSyntax.text, ClassSyntax.set] using ClassText.minus group inner

/-- With at most `n` brackets open at a time, a class expression is read from a text exactly if the
text starts with that of a tree of the grammar. What is left is the text behind it, and the set has the
members that the tree denotes. -/
theorem classExpr_reads_tree (s : Settings) (n : Nat) (t v : List Char) (set : CodepointSet) :
    (classExpr s n (.ofList t)).outcome = .accepted set (.ofList v) ↔
      ∃ e : ClassSyntax, e.WellFormed s.dialect ∧ e.depth ≤ n ∧ t = e.text ++ v ∧
        ∀ c, set.contains c = true ↔ e.Denotes c := by
  refine takes_classExpr.trans (classText_iff_tree.trans (exists_congr fun e => ?_))
  have members : set = e.set ↔ ∀ c, set.contains c = true ↔ e.Denotes c := by
    simp only [CodepointSet.contains_iff_mem, ← ClassSyntax.mem_set]
    exact ⟨fun same c => by rw [same], CodepointSet.ext_mem⟩
  rw [members]

end SchemaRegex.Pattern

import Mathlib.Data.List.Forall2
import SchemaRegex.Unicode.CategoryData

/-!
# Character data

What a text of character data says about codepoints, and that its entries say the same. A line gives a
category to its own codepoint, and a `, First>` line with the `, Last>` line behind it to all the
codepoints between them (`Assigns`). Such pairs and the other lines are the blocks of the data, whose
entries follow each other in ascending order.
-/

namespace SchemaRegex

theorem Text.splitAll_cons (separator c : Char) (text : List Char) :
    splitAll separator (c :: text) =
      if c = separator then [] :: splitAll separator text
      else (splitAll separator text).modifyHead (c :: ·) := by
  simp only [splitAll, List.foldr_cons]
  by_cases same : c = separator <;> simp [same]

theorem Text.splitAll_append {separator : Char} {part : List Char} (inside : separator ∉ part)
    (text : List Char) :
    splitAll separator (part ++ separator :: text) = part :: splitAll separator text := by
  induction part with
  | nil => rw [List.nil_append, splitAll_cons, if_pos rfl]
  | cons c part ih =>
    rw [List.mem_cons, not_or] at inside
    obtain ⟨other, later⟩ := inside
    rw [List.cons_append, splitAll_cons, if_neg (Ne.symm other), ih later, List.modifyHead_cons]

theorem Text.splitAll_of_not_mem {separator : Char} {part : List Char} (inside : separator ∉ part) :
    splitAll separator part = [part] := by
  induction part with
  | nil => rfl
  | cons c part ih =>
    rw [List.mem_cons, not_or] at inside
    obtain ⟨other, later⟩ := inside
    rw [splitAll_cons, if_neg (Ne.symm other), ih later, List.modifyHead_cons]

namespace Unicode

def dataLines (data : List Char) : List (List Char) :=
  ((Text.lines data).map Text.trim).filter (· ≠ [])

structure DataLine where
  codepoint : Nat
  name : String
  category : String
deriving DecidableEq, Repr

def Hexadecimal (text : List Char) (n : Nat) : Prop :=
  ∃ digits, (text = digits ∨ text = '+' :: digits) ∧ digits ≠ [] ∧
    (∀ d ∈ digits, (Text.digitValue? 16 d).isSome) ∧ Text.valueOf 16 digits = n

namespace DataLine

structure Written (l : DataLine) (line : List Char) : Prop where
  fields : ∃ number rest, line = number ++ ';' :: (l.name.toList ++ ';' :: (l.category.toList ++ rest)) ∧
    ';' ∉ number ∧ Hexadecimal (Text.trim number) l.codepoint ∧ (rest = [] ∨ [';'] <+: rest)
  name : ';' ∉ l.name.toList
  category : ';' ∉ l.category.toList

def OpensRange (l : DataLine) : Prop := ", First>".toList <:+ l.name.toList

def ClosesRange (l : DataLine) : Prop := ", Last>".toList <:+ l.name.toList

instance (l : DataLine) : Decidable l.OpensRange :=
  inferInstanceAs (Decidable (", First>".toList <:+ l.name.toList))

instance (l : DataLine) : Decidable l.ClosesRange :=
  inferInstanceAs (Decidable (", Last>".toList <:+ l.name.toList))

theorem ClosesRange.not_opens {l : DataLine} (closes : l.ClosesRange) : ¬ l.OpensRange := by
  intro opens
  have shorter := List.suffix_of_suffix_length_le closes opens (by decide)
  revert shorter
  decide

end DataLine

/-- The lines give the category to the codepoint: a line of its own does so, or a pair of lines that
encloses it. -/
def Assigns (ls : List DataLine) (c : Nat) (category : String) : Prop :=
  (∃ l ∈ ls, l.codepoint = c ∧ l.category = category) ∨
    ∃ f l, [f, l] <:+: ls ∧ f.OpensRange ∧ l.ClosesRange ∧ f.category = category ∧
      l.category = category ∧ f.codepoint ≤ c ∧ c ≤ l.codepoint

def Paired (ls : List DataLine) : Prop :=
  ∀ f rest, f :: rest <:+ ls → f.OpensRange →
    ∃ l ∈ rest.head?, l.ClosesRange ∧ l.category = f.category

structure CharacterData (data : List Char) (ls : List DataLine) : Prop where
  written : List.Forall₂ DataLine.Written ls (dataLines data)
  inCodespace : ∀ l ∈ ls, l.codepoint ≤ lastCodepoint
  ascending : ls.Pairwise (·.codepoint < ·.codepoint)
  paired : Paired ls

theorem paired_nil : Paired [] := by
  intro f rest suffix
  cases List.suffix_nil.mp suffix

theorem paired_cons {f : DataLine} {ls : List DataLine} :
    Paired (f :: ls) ↔
      (f.OpensRange → ∃ l ∈ ls.head?, l.ClosesRange ∧ l.category = f.category) ∧ Paired ls := by
  constructor
  · intro paired
    exact ⟨paired f ls List.suffix_rfl,
      fun g rest suffix => paired g rest (suffix.trans (List.suffix_cons f ls))⟩
  · intro given g rest suffix
    obtain same | inside := List.suffix_cons_iff.mp suffix
    · cases same
      exact given.1
    · exact given.2 g rest inside

theorem Paired.tail {f : DataLine} {ls : List DataLine} (paired : Paired (f :: ls)) : Paired ls :=
  (paired_cons.mp paired).2

theorem Paired.last {l : DataLine} (paired : Paired [l]) : ¬ l.OpensRange := by
  intro opens
  obtain ⟨next, none, _⟩ := (paired_cons.mp paired).1 opens
  cases none

theorem Paired.pair {f l : DataLine} {ls : List DataLine} (paired : Paired (f :: l :: ls))
    (opens : f.OpensRange) : l.ClosesRange ∧ l.category = f.category ∧ Paired ls := by
  obtain ⟨next, head, closes, same⟩ := (paired_cons.mp paired).1 opens
  cases head
  exact ⟨closes, same, paired.tail.tail⟩

instance decidablePaired : (ls : List DataLine) → Decidable (Paired ls)
  | [] => .isTrue paired_nil
  | _ :: ls =>
    have := decidablePaired ls
    decidable_of_iff _ paired_cons.symm

theorem readCodepoint?_of_hexadecimal {text : List Char} {n : Nat}
    (number : Hexadecimal (Text.trim text) n) (small : n ≤ lastCodepoint) :
    readCodepoint? text = some n := by
  obtain ⟨digits, form, nonempty, digit, value⟩ := number
  have fits : n ≤ Text.maxWord := Nat.le_trans small (by decide)
  have all := List.all_eq_true.mpr digit
  unfold readCodepoint? Text.readNumeral?
  obtain plain | signed := form
  · rw [plain]
    split
    · cases digit '+' List.mem_cons_self
    · simp [nonempty, value, fits, all]
  · rw [signed]
    simp [nonempty, value, fits, all]

theorem DataLine.Written.of_digits {l : DataLine} {line : List Char} (number rest : List Char)
    (fields : line = number ++ ';' :: (l.name.toList ++ ';' :: (l.category.toList ++ rest)) ∧
      ';' ∉ number ∧ ';' ∉ l.name.toList ∧ ';' ∉ l.category.toList ∧ (rest = [] ∨ [';'] <+: rest))
    (digits : Text.trim number ≠ [] ∧
      ((Text.trim number).all fun d => (Text.digitValue? 16 d).isSome) ∧
      Text.valueOf 16 (Text.trim number) = l.codepoint) : l.Written line := by
  obtain ⟨same, noMark, name, category, ends⟩ := fields
  obtain ⟨nonempty, all, value⟩ := digits
  have hexadecimal : Hexadecimal (Text.trim number) l.codepoint :=
    ⟨_, .inl rfl, nonempty, List.all_eq_true.mp all, value⟩
  exact ⟨⟨number, rest, same, noMark, hexadecimal, ends⟩, name, category⟩

theorem DataLine.Written.readFields? {l : DataLine} {line : List Char} (written : l.Written line)
    (small : l.codepoint ≤ lastCodepoint) :
    readFields? line = some (l.codepoint, l.name.toList, l.category.toList) := by
  obtain ⟨⟨number, rest, same, noMark, hexadecimal, ends⟩, name, category⟩ := written
  have split : ∃ more, Text.splitAll ';' line = number :: l.name.toList :: l.category.toList :: more := by
    rw [same, Text.splitAll_append noMark, Text.splitAll_append name]
    obtain nothing | ⟨fields, next⟩ := ends
    · rw [nothing, List.append_nil, Text.splitAll_of_not_mem category]
      exact ⟨[], rfl⟩
    · rw [← next, List.singleton_append, Text.splitAll_append category]
      exact ⟨_, rfl⟩
  obtain ⟨more, split⟩ := split
  simp only [Unicode.readFields?, split, readCodepoint?_of_hexadecimal hexadecimal small,
    Option.map_some]

structure DataBlock where
  first : Nat
  last : Nat
  category : String

def dataBlocks : List DataLine → List DataBlock
  | [] => []
  | [l] => [⟨l.codepoint, l.codepoint, l.category⟩]
  | f :: l :: ls =>
    if f.OpensRange then ⟨f.codepoint, l.codepoint, f.category⟩ :: dataBlocks ls
    else ⟨f.codepoint, f.codepoint, f.category⟩ :: dataBlocks (l :: ls)

def DataBlock.entries (b : DataBlock) : List Entry :=
  match GeneralCategory.ofName? b.category with
  | none => []
  | some category =>
    (List.range' b.first (b.last - b.first)).map (⟨·, .category category⟩) ++
      [⟨b.last, .category category⟩]

theorem foldl_cons_entries (kind : RunKind) (codepoints : List Nat) (done : List Entry) :
    codepoints.foldl (fun done c => ⟨c, kind⟩ :: done) done =
      (codepoints.map (Entry.mk · kind)).reverse ++ done := by
  induction codepoints generalizing done with
  | nil => rfl
  | cons c codepoints ih => simp [ih]

theorem readEntries_alone {l : DataLine} {line : List Char} (written : l.Written line)
    (small : l.codepoint ≤ lastCodepoint) (alone : ¬ l.OpensRange) (done : List Entry)
    (lines : List (List Char)) :
    readEntries none done (line :: lines) =
      readEntries none ((DataBlock.mk l.codepoint l.codepoint l.category).entries.reverse ++ done)
        lines := by
  have notFirst : ¬ ", First>".toList.isSuffixOf l.name.toList = true :=
    fun suffix => alone (List.isSuffixOf_iff_suffix.mp suffix)
  rw [readEntries, written.readFields? small]
  simp only [String.ofList_toList, DataBlock.entries, Nat.sub_self, List.range'_zero]
  cases GeneralCategory.ofName? l.category with
  | none => rfl
  | some category =>
    simp only [if_neg notFirst]
    split <;> rfl

theorem readEntries_pair {f l : DataLine} {first last : List Char} (firstWritten : f.Written first)
    (lastWritten : l.Written last) (firstSmall : f.codepoint ≤ lastCodepoint)
    (lastSmall : l.codepoint ≤ lastCodepoint) (opens : f.OpensRange) (closes : l.ClosesRange)
    (same : l.category = f.category) (done : List Entry) (lines : List (List Char)) :
    readEntries none done (first :: last :: lines) =
      readEntries none ((DataBlock.mk f.codepoint l.codepoint f.category).entries.reverse ++ done)
        lines := by
  have isFirst : ", First>".toList.isSuffixOf f.name.toList = true :=
    List.isSuffixOf_iff_suffix.mpr opens
  have notFirst : ¬ ", First>".toList.isSuffixOf l.name.toList = true :=
    fun suffix => closes.not_opens (List.isSuffixOf_iff_suffix.mp suffix)
  have isLast : ", Last>".toList.isSuffixOf l.name.toList = true :=
    List.isSuffixOf_iff_suffix.mpr closes
  rw [readEntries, firstWritten.readFields? firstSmall]
  simp only [String.ofList_toList, DataBlock.entries]
  cases known : GeneralCategory.ofName? f.category with
  | none =>
    rw [readEntries, lastWritten.readFields? lastSmall]
    simp only [String.ofList_toList, same, known]
    rfl
  | some category =>
    simp only [if_pos isFirst]
    rw [readEntries, lastWritten.readFields? lastSmall]
    simp only [String.ofList_toList, same, known, if_neg notFirst, if_pos isLast, foldl_cons_entries]
    simp

theorem readEntries_eq {ls : List DataLine} {lines : List (List Char)}
    (written : List.Forall₂ DataLine.Written ls lines) (small : ∀ l ∈ ls, l.codepoint ≤ lastCodepoint)
    (paired : Paired ls) (done : List Entry) :
    readEntries none done lines = .ok (done.reverse ++ (dataBlocks ls).flatMap DataBlock.entries) := by
  fun_induction dataBlocks ls generalizing lines done with
  | case1 =>
    cases written
    simp [readEntries]
  | case2 l =>
    cases written with
    | cons here nothing =>
      cases nothing
      rw [readEntries_alone here (small l List.mem_cons_self) paired.last]
      simp [readEntries]
  -- with a pair the reader is back where no range is open
  | case3 f l ls opens ih =>
    cases written with
    | cons first others =>
      cases others with
      | cons last others =>
        obtain ⟨closes, same, rest⟩ := paired.pair opens
        obtain ⟨firstSmall, lastSmall, othersSmall⟩ :=
          (List.forall_mem_cons.trans (and_congr_right fun _ => List.forall_mem_cons)).mp small
        rw [readEntries_pair first last firstSmall lastSmall opens closes same,
          ih others othersSmall rest]
        simp
  | case4 f l ls alone ih =>
    cases written with
    | cons here others =>
      obtain ⟨hereSmall, othersSmall⟩ := List.forall_mem_cons.mp small
      rw [readEntries_alone here hereSmall alone, ih others othersSmall paired.tail]
      simp

theorem infix_cons_cons {α : Type} {f l g : α} {ls : List α} :
    [f, l] <:+: g :: ls ↔ g = f ∧ ls.head? = some l ∨ [f, l] <:+: ls := by
  rw [List.infix_cons_iff, List.cons_prefix_cons]
  refine or_congr_left (and_congr eq_comm ?_)
  cases ls with
  | nil => simp
  | cons h ls => simp [eq_comm]

theorem assigns_nil {c : Nat} {category : String} : ¬ Assigns [] c category := by
  intro assigns
  obtain ⟨l, member, _⟩ | ⟨f, l, pair, _⟩ := assigns
  · cases member
  · cases List.infix_nil.mp pair

theorem assigns_alone {f : DataLine} {ls : List DataLine} (alone : ¬ f.OpensRange) {c : Nat}
    {category : String} :
    Assigns (f :: ls) c category ↔
      f.codepoint ≤ c ∧ c ≤ f.codepoint ∧ f.category = category ∨ Assigns ls c category := by
  constructor
  · intro given
    obtain ⟨g, member, own, value⟩ | ⟨g, l, pair, opens, others⟩ := given
    · obtain here | member := List.mem_cons.mp member
      · subst here own
        exact .inl ⟨Nat.le_refl _, Nat.le_refl _, value⟩
      · exact .inr (.inl ⟨g, member, own, value⟩)
    · obtain ⟨here, _⟩ | pair := infix_cons_cons.mp pair
      · subst here
        exact absurd opens alone
      · exact .inr (.inr ⟨g, l, pair, opens, others⟩)
  · intro given
    obtain ⟨low, high, value⟩ | ⟨g, member, own⟩ | ⟨g, l, pair, others⟩ := given
    · exact .inl ⟨f, List.mem_cons_self, Nat.le_antisymm low high, value⟩
    · exact .inl ⟨g, List.mem_cons_of_mem f member, own⟩
    · exact .inr ⟨g, l, infix_cons_cons.mpr (.inr pair), others⟩

theorem assigns_pair {f l : DataLine} {ls : List DataLine} (opens : f.OpensRange)
    (closes : l.ClosesRange) (same : l.category = f.category) (less : f.codepoint < l.codepoint)
    {c : Nat} {category : String} :
    Assigns (f :: l :: ls) c category ↔
      f.codepoint ≤ c ∧ c ≤ l.codepoint ∧ f.category = category ∨ Assigns ls c category := by
  constructor
  · intro given
    obtain ⟨g, member, own, value⟩ | ⟨g, h, pair, gOpens, hCloses, value, valueLast, range⟩ := given
    · obtain here | member := List.mem_cons.mp member
      · subst here own
        exact .inl ⟨Nat.le_refl _, Nat.le_of_lt less, value⟩
      obtain here | member := List.mem_cons.mp member
      · subst here own
        exact .inl ⟨Nat.le_of_lt less, Nat.le_refl _, same ▸ value⟩
      · exact .inr (.inl ⟨g, member, own, value⟩)
    · obtain ⟨here, next⟩ | pair := infix_cons_cons.mp pair
      · cases here
        cases next
        exact .inl ⟨range.1, range.2, value⟩
      obtain ⟨here, _⟩ | pair := infix_cons_cons.mp pair
      · subst here
        exact absurd gOpens closes.not_opens
      · exact .inr (.inr ⟨g, h, pair, gOpens, hCloses, value, valueLast, range⟩)
  · intro given
    obtain ⟨low, high, value⟩ | ⟨g, member, own⟩ | ⟨g, h, pair, others⟩ := given
    · exact .inr ⟨f, l, infix_cons_cons.mpr (.inl ⟨rfl, rfl⟩), opens, closes, value,
        same.trans value, low, high⟩
    · exact .inl ⟨g, List.mem_cons_of_mem f (List.mem_cons_of_mem l member), own⟩
    · exact .inr ⟨g, h, infix_cons_cons.mpr (.inr (infix_cons_cons.mpr (.inr pair))), others⟩

theorem assigns_iff_block {ls : List DataLine} (ascending : ls.Pairwise (·.codepoint < ·.codepoint))
    (paired : Paired ls) {c : Nat} {category : String} :
    Assigns ls c category ↔
      ∃ b ∈ dataBlocks ls, b.first ≤ c ∧ c ≤ b.last ∧ b.category = category := by
  fun_induction dataBlocks ls with
  | case1 => simp [assigns_nil]
  | case2 l =>
    rw [assigns_alone paired.last]
    simp [assigns_nil]
  | case3 f l ls opens ih =>
    obtain ⟨closes, same, rest⟩ := paired.pair opens
    obtain ⟨above, later⟩ := List.pairwise_cons.mp ascending
    rw [assigns_pair opens closes same (above l List.mem_cons_self),
      ih (List.pairwise_cons.mp later).2 rest]
    simp
  | case4 f l ls alone ih =>
    rw [assigns_alone alone, ih (List.pairwise_cons.mp ascending).2 paired.tail]
    simp

variable {ls : List DataLine}

theorem codepoints_of_mem_dataBlocks (ascending : ls.Pairwise (·.codepoint < ·.codepoint)) {b : DataBlock}
    (member : b ∈ dataBlocks ls) :
    b.first ≤ b.last ∧ (∃ l ∈ ls, l.codepoint = b.first) ∧ ∃ l ∈ ls, l.codepoint = b.last := by
  fun_induction dataBlocks ls with
  | case1 => cases member
  | case2 l =>
    cases List.mem_singleton.mp member
    simp
  | case3 f l ls opens ih =>
    obtain ⟨above, later⟩ := List.pairwise_cons.mp ascending
    obtain here | member := List.mem_cons.mp member
    · cases here
      have less := above l List.mem_cons_self
      simp [Nat.le_of_lt less]
    · obtain ⟨ordered, first, last⟩ := ih (List.pairwise_cons.mp later).2 member
      simp [ordered, first, last]
  | case4 f l ls alone ih =>
    obtain here | member := List.mem_cons.mp member
    · cases here
      simp
    · obtain ⟨ordered, first, last⟩ := ih (List.pairwise_cons.mp ascending).2 member
      exact ⟨ordered, List.exists_mem_cons_of_exists first, List.exists_mem_cons_of_exists last⟩

theorem dataBlocks_ascending (ascending : ls.Pairwise (·.codepoint < ·.codepoint)) :
    (dataBlocks ls).Pairwise (·.last < ·.first) := by
  fun_induction dataBlocks ls with
  | case1 => exact .nil
  | case2 l => exact List.pairwise_singleton _ _
  | case3 f l ls opens ih =>
    obtain ⟨above, later⟩ := List.pairwise_cons.mp (List.pairwise_cons.mp ascending).2
    refine .cons (fun b member => ?_) (ih later)
    obtain ⟨_, ⟨g, inside, same⟩, _⟩ := codepoints_of_mem_dataBlocks later member
    exact same ▸ above g inside
  | case4 f l ls alone ih =>
    obtain ⟨above, later⟩ := List.pairwise_cons.mp ascending
    refine .cons (fun b member => ?_) (ih later)
    obtain ⟨_, ⟨g, inside, same⟩, _⟩ := codepoints_of_mem_dataBlocks later member
    exact same ▸ above g inside

theorem Assigns.unique (ascending : ls.Pairwise (·.codepoint < ·.codepoint)) (paired : Paired ls)
    {c : Nat} {v w : String} (left : Assigns ls c v) (right : Assigns ls c w) : v = w := by
  obtain ⟨a, aMember, aLow, aHigh, aValue⟩ := (assigns_iff_block ascending paired).mp left
  obtain ⟨b, bMember, bLow, bHigh, bValue⟩ := (assigns_iff_block ascending paired).mp right
  obtain ⟨i, inside, aSame⟩ := List.getElem_of_mem aMember
  obtain ⟨j, jInside, bSame⟩ := List.getElem_of_mem bMember
  have order := List.pairwise_iff_getElem.mp (dataBlocks_ascending ascending)
  obtain before | same | behind := Nat.lt_trichotomy i j
  · have apart := order i j inside jInside before
    rw [aSame, bSame] at apart
    omega
  · subst same
    rw [← aValue, ← bValue, ← aSame, ← bSame]
  · have apart := order j i jInside inside behind
    rw [aSame, bSame] at apart
    omega

theorem GeneralCategory.name_of_ofName? {name : String} {category : GeneralCategory}
    (found : ofName? name = some category) : category.name = name := by
  have named := List.find?_some found
  exact eq_of_beq named

theorem DataBlock.mem_entries {b : DataBlock} (ordered : b.first ≤ b.last) {c : Nat}
    {category : GeneralCategory} :
    ⟨c, .category category⟩ ∈ b.entries ↔
      b.first ≤ c ∧ c ≤ b.last ∧ b.category = category.name := by
  unfold entries
  cases known : GeneralCategory.ofName? b.category with
  | none =>
    simp only [List.not_mem_nil, false_iff, not_and]
    intro _ _ same
    rw [same, GeneralCategory.ofName?_name] at known
    cases known
  | some other =>
    have names : b.category = category.name ↔ other = category := by
      constructor
      · intro same
        rw [same, GeneralCategory.ofName?_name] at known
        exact (Option.some.inj known).symm
      · intro same
        rw [← same, GeneralCategory.name_of_ofName? known]
    simp only [List.mem_append, List.mem_map, List.mem_range'_1, List.mem_singleton, Entry.mk.injEq,
      RunKind.category.injEq, names]
    constructor
    · intro given
      obtain ⟨d, range, same, value⟩ | ⟨same, value⟩ := given
      · exact ⟨by omega, by omega, value⟩
      · exact ⟨by omega, by omega, value.symm⟩
    · intro given
      obtain ⟨low, high, value⟩ := given
      by_cases last : c = b.last
      · exact .inr ⟨last, value.symm⟩
      · exact .inl ⟨c, by omega, rfl, value⟩

theorem DataBlock.exists_category_of_mem_entries {b : DataBlock} {e : Entry} (member : e ∈ b.entries) :
    ∃ category, e.kind = .category category := by
  unfold entries at member
  cases known : GeneralCategory.ofName? b.category with
  | none =>
    rw [known] at member
    cases member
  | some category =>
    rw [known] at member
    simp only [List.mem_append, List.mem_map, List.mem_singleton] at member
    obtain ⟨d, _, same⟩ | same := member
    · exact ⟨category, by rw [← same]⟩
    · exact ⟨category, by rw [same]⟩

theorem DataBlock.range_of_mem_entries {b : DataBlock} (ordered : b.first ≤ b.last) {e : Entry}
    (member : e ∈ b.entries) : b.first ≤ e.codepoint ∧ e.codepoint ≤ b.last := by
  obtain ⟨category, kind⟩ := exists_category_of_mem_entries member
  have same : e = ⟨e.codepoint, .category category⟩ := by rw [← kind]
  rw [same] at member
  obtain ⟨low, high, _⟩ := (mem_entries ordered).mp member
  exact ⟨low, high⟩

theorem DataBlock.entries_ascending (b : DataBlock) :
    b.entries.Pairwise (·.codepoint < ·.codepoint) := by
  unfold entries
  cases GeneralCategory.ofName? b.category with
  | none => exact .nil
  | some category =>
    refine List.pairwise_append.mpr ⟨?_, List.pairwise_singleton _ _, ?_⟩
    · exact List.pairwise_map.mpr List.pairwise_lt_range'
    · intro e member f last
      obtain ⟨c, range, same⟩ := List.mem_map.mp member
      rw [List.mem_range'_1] at range
      rw [← same, List.mem_singleton.mp last]
      simp only
      omega

structure Ordered (es : List Entry) : Prop where
  inCodespace : ∀ e ∈ es, e.codepoint ≤ lastCodepoint
  ascending : es.Pairwise (·.codepoint < ·.codepoint)
  kinds : ∀ e ∈ es, ∃ category, e.kind = .category category

/-- The entries of character data say what its lines say. -/
theorem CharacterData.exists_entries {data : List Char} (given : CharacterData data ls) :
    ∃ es, entriesOf data = .ok es ∧ Ordered es ∧
      ∀ c category, ⟨c, .category category⟩ ∈ es ↔ Assigns ls c category.name := by
  obtain ⟨written, inCodespace, ascending, paired⟩ := given
  refine ⟨(dataBlocks ls).flatMap DataBlock.entries, readEntries_eq written inCodespace paired [],
    ⟨?_, ?_, ?_⟩, ?_⟩
  · intro e member
    obtain ⟨b, block, inside⟩ := List.mem_flatMap.mp member
    obtain ⟨ordered, _, l, line, last⟩ := codepoints_of_mem_dataBlocks ascending block
    have high := (DataBlock.range_of_mem_entries ordered inside).2
    exact Nat.le_trans high (last ▸ inCodespace l line)
  · refine List.pairwise_flatMap.mpr ⟨fun b _ => b.entries_ascending, ?_⟩
    refine (dataBlocks_ascending ascending).imp_of_mem fun aBlock bBlock less e left f right => ?_
    have high := DataBlock.range_of_mem_entries (codepoints_of_mem_dataBlocks ascending aBlock).1 left
    have low := DataBlock.range_of_mem_entries (codepoints_of_mem_dataBlocks ascending bBlock).1 right
    omega
  · intro e member
    obtain ⟨b, _, inside⟩ := List.mem_flatMap.mp member
    exact DataBlock.exists_category_of_mem_entries inside
  · intro c category
    rw [List.mem_flatMap, assigns_iff_block ascending paired]
    exact exists_congr fun b => and_congr_right fun block =>
      DataBlock.mem_entries (codepoints_of_mem_dataBlocks ascending block).1

end Unicode

end SchemaRegex

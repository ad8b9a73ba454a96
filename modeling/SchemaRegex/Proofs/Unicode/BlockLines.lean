import SchemaRegex.Proofs.Unicode.DataLines
import SchemaRegex.Unicode.Blocks

/-!
# Block data

What the lines of a text of block data say, and which texts are packed. A line gives a name to the
codepoints from its first to its last (`BlockLine.Written`); it is read in one way only. A text is
refused because of one of its lines, exactly if the text is faulty (`encodeBlockLines_eq_error`), and
any other one is packed with the gaps between its blocks (`encodeBlockLines_eq_ok`).
-/

namespace SchemaRegex

theorem Text.splitOnce?_append {m : Char} {mark before : List Char} (absent : m ∉ before)
    (after : List Char) :
    splitOnce? (m :: mark) (before ++ (m :: mark ++ after)) = some (before, after) := by
  induction before with
  | nil => simp [splitOnce?]
  | cons c before ih =>
    rw [List.mem_cons, not_or] at absent
    obtain ⟨other, absent⟩ := absent
    have here : ¬ (m :: mark).isPrefixOf (c :: (before ++ (m :: mark ++ after))) = true := by
      simp [other]
    rw [List.cons_append, splitOnce?, if_neg here, ih absent]
    rfl

theorem Text.eq_of_splitOnce? {mark text before after : List Char}
    (split : splitOnce? mark text = some (before, after)) : text = before ++ (mark ++ after) := by
  induction text generalizing before with
  | nil =>
    simp only [splitOnce?, Option.ite_none_right_eq_some, Option.some.injEq, Prod.mk.injEq] at split
    obtain ⟨none, rfl, rfl⟩ := split
    simp [none]
  | cons c text ih =>
    rw [splitOnce?] at split
    split at split
    · rename_i front
      obtain ⟨rest, same⟩ := List.isPrefixOf_iff_prefix.mp front
      rw [← same, List.drop_left] at split
      cases split
      exact same.symm
    · obtain ⟨⟨u, v⟩, later, same⟩ := Option.map_eq_some_iff.mp split
      cases same
      rw [ih later, List.cons_append]

theorem Text.blank_or_mem_dropWhile {text : List Char} {c : Char} (member : c ∈ text) :
    isBlank c = true ∨ c ∈ text.dropWhile isBlank := by
  rw [← List.takeWhile_append_dropWhile (p := isBlank) (l := text), List.mem_append] at member
  exact member.imp_left fun front => List.all_eq_true.mp List.all_takeWhile c front

/-- What is trimmed away is blank. -/
theorem Text.blank_or_mem_trim {text : List Char} {c : Char} (member : c ∈ text) :
    isBlank c = true ∨ c ∈ trim text := by
  obtain blank | front := blank_or_mem_dropWhile member
  · exact .inl blank
  · rw [← List.mem_reverse] at front
    rw [trim, List.mem_reverse]
    exact blank_or_mem_dropWhile front

namespace Unicode

theorem Hexadecimal.unique {text : List Char} {m n : Nat} (left : Hexadecimal text m)
    (right : Hexadecimal text n) : m = n := by
  obtain ⟨ds, form, _, digit, value⟩ := left
  obtain ⟨es, other, _, digitOther, valueOther⟩ := right
  have sign {digits : List Char} (all : ∀ d ∈ digits, (Text.digitValue? 16 d).isSome) (rest : List Char) :
      digits ≠ '+' :: rest := by
    intro same
    rw [same] at all
    cases all '+' List.mem_cons_self
  obtain plain | signed := form <;> obtain plainOther | signedOther := other
  · rw [← value, ← valueOther, ← plain, ← plainOther]
  · exact absurd (plain.symm.trans signedOther) (sign digit es)
  · exact absurd (plainOther.symm.trans signed) (sign digitOther ds)
  · cases signed.symm.trans signedOther
    rw [← value, ← valueOther]

theorem Hexadecimal.mem_iff {text : List Char} {n : Nat} (number : Hexadecimal text n) {c : Char}
    (member : c ∈ text) : c = '+' ∨ (Text.digitValue? 16 c).isSome := by
  obtain ⟨digits, form, _, digit, _⟩ := number
  obtain plain | signed := form
  · exact .inr (digit c (plain ▸ member))
  · rw [signed, List.mem_cons] at member
    exact member.imp_right (digit c)

/-- A number holds no mark between the parts of a line, even with blanks around it. -/
theorem Hexadecimal.no_mark {text : List Char} {n : Nat} (number : Hexadecimal (Text.trim text) n) :
    '.' ∉ text ∧ ';' ∉ text := by
  have other (c : Char) (mark : c = '.' ∨ c = ';') : c ∉ text := by
    intro member
    obtain blank | inside := Text.blank_or_mem_trim member
    · obtain rfl | rfl := mark <;> cases blank
    · obtain rfl | digit := number.mem_iff inside
      · obtain none | none := mark <;> cases none
      · obtain rfl | rfl := mark <;> cases digit
  exact ⟨other '.' (.inl rfl), other ';' (.inr rfl)⟩

theorem hexadecimal_of_readCodepoint? {text : List Char} {n : Nat} (read : readCodepoint? text = some n) :
    Hexadecimal (Text.trim text) n := by
  unfold readCodepoint? Text.readNumeral? at read
  split at read <;>
    simp only [Option.ite_none_left_eq_some, Option.ite_none_right_eq_some, not_or, Bool.not_eq_true',
      Bool.not_eq_false, Option.some.injEq, List.all_eq_true] at read <;>
    obtain ⟨⟨nonempty, digit⟩, -, value⟩ := read
  · rename_i digits same
    exact ⟨digits, .inr same, nonempty, digit, value⟩
  · exact ⟨_, .inl rfl, nonempty, digit, value⟩

def blockLines (data : List Char) : List (List Char) :=
  (dataLines data).filter (·.head? ≠ some '#')

namespace BlockLine

/-- The line is written with its codepoints, two dots between them, and its name behind a semicolon.
Blanks in the name do not count. -/
def Written (b : BlockLine) (line : List Char) : Prop :=
  ∃ first last name, line = first ++ '.' :: '.' :: (last ++ ';' :: name) ∧
    Hexadecimal (Text.trim first) b.first ∧ Hexadecimal (Text.trim last) b.last ∧
    b.name = String.ofList (Text.stripBlanks name)

variable {a b : BlockLine} {line : List Char}

theorem Written.split (written : b.Written line) : ∃ range first last name,
    Text.splitOnce? [';'] line = some (range, name) ∧
    Text.splitOnce? ['.', '.'] range = some (first, last) ∧
    Hexadecimal (Text.trim first) b.first ∧ Hexadecimal (Text.trim last) b.last ∧
    b.name = String.ofList (Text.stripBlanks name) := by
  obtain ⟨first, last, name, same, lower, upper, named⟩ := written
  have noMark : ';' ∉ first ++ '.' :: '.' :: last := by
    simp [lower.no_mark.2, upper.no_mark.2]
  have line : line = (first ++ '.' :: '.' :: last) ++ ([';'] ++ name) := by simp [same]
  exact ⟨first ++ '.' :: '.' :: last, first, last, name, line ▸ Text.splitOnce?_append noMark name,
    Text.splitOnce?_append lower.no_mark.1 last, lower, upper, named⟩

theorem Written.unique (left : a.Written line) (right : b.Written line) : a = b := by
  obtain ⟨_, _, _, _, split, splitRange, lower, upper, named⟩ := left.split
  obtain ⟨_, _, _, _, splitOther, splitRangeOther, lowerOther, upperOther, namedOther⟩ := right.split
  cases split.symm.trans splitOther
  cases splitRange.symm.trans splitRangeOther
  cases a
  cases b
  rw [mk.injEq]
  exact ⟨lower.unique lowerOther, upper.unique upperOther, named.trans namedOther.symm⟩

theorem Written.read? (written : b.Written line) (lower : b.first ≤ lastCodepoint)
    (upper : b.last ≤ lastCodepoint) : read? line = some b := by
  obtain ⟨_, _, _, _, split, splitRange, first, last, named⟩ := written.split
  simp only [BlockLine.read?, split, splitRange, readCodepoint?_of_hexadecimal first lower,
    readCodepoint?_of_hexadecimal last upper, ← named, bind, Option.bind, pure]

theorem written_of_read? (read : read? line = some b) : b.Written line := by
  simp only [BlockLine.read?, bind, pure, Option.bind_eq_some_iff, Option.some.injEq] at read
  obtain ⟨⟨range, name⟩, split, ⟨first, last⟩, splitRange, lower, readLower, upper, readUpper, same⟩ := read
  subst same
  refine ⟨first, last, name, ?_, hexadecimal_of_readCodepoint? readLower,
    hexadecimal_of_readCodepoint? readUpper, rfl⟩
  have front : range = first ++ (['.', '.'] ++ last) := Text.eq_of_splitOnce? splitRange
  rw [Text.eq_of_splitOnce? split, front]
  simp

end BlockLine

def Listed (lines : List (List Char)) (b : BlockLine) : Prop := ∃ line ∈ lines, b.Written line

/-- A line cannot be read, or its block ends before it starts, or starts at or before the end of the
block on the line before. -/
def Faulty (lines : List (List Char)) : Prop :=
  (∃ line ∈ lines, ∀ b : BlockLine, ¬ b.Written line) ∨
    (∃ b, Listed lines b ∧ b.last < b.first) ∨
      ∃ line next, [line, next] <:+: lines ∧
        ∃ a b : BlockLine, a.Written line ∧ b.Written next ∧ b.first ≤ a.last

def StartsBefore (next : Nat) (lines : List (List Char)) : Prop :=
  ∃ line ∈ lines.head?, ∃ b : BlockLine, b.Written line ∧ b.first < next

variable {lines : List (List Char)} {line : List Char}

theorem listed_cons {b : BlockLine} : Listed (line :: lines) b ↔ b.Written line ∨ Listed lines b := by
  simp [Listed]

theorem faulty_cons {a : BlockLine} (written : a.Written line) (ordered : a.first ≤ a.last) :
    Faulty (line :: lines) ↔ StartsBefore (a.last + 1) lines ∨ Faulty lines := by
  have only {b : BlockLine} (other : b.Written line) : b = a := other.unique written
  constructor
  · intro given
    obtain ⟨l, member, none⟩ | ⟨b, listed, less⟩ | ⟨l, m, pair, b, c, first, second, low⟩ := given
    · obtain rfl | member := List.mem_cons.mp member
      · exact absurd written (none a)
      · exact .inr (.inl ⟨l, member, none⟩)
    · obtain here | listed := listed_cons.mp listed
      · rw [only here] at less
        omega
      · exact .inr (.inr (.inl ⟨b, listed, less⟩))
    · obtain ⟨rfl, head⟩ | pair := infix_cons_cons.mp pair
      · rw [only first] at low
        exact .inl ⟨m, head, c, second, Nat.lt_succ_of_le low⟩
      · exact .inr (.inr (.inr ⟨l, m, pair, b, c, first, second, low⟩))
  · intro given
    obtain ⟨m, head, c, second, low⟩ | ⟨l, member, none⟩ | ⟨b, listed, less⟩ | ⟨l, m, pair, others⟩ := given
    · exact .inr (.inr ⟨line, m, infix_cons_cons.mpr (.inl ⟨rfl, head⟩), a, c, written, second,
        Nat.le_of_lt_succ low⟩)
    · exact .inl ⟨l, List.mem_cons_of_mem line member, none⟩
    · exact .inr (.inl ⟨b, listed_cons.mpr (.inr listed), less⟩)
    · exact .inr (.inr ⟨l, m, infix_cons_cons.mpr (.inr pair), others⟩)

theorem not_faulty_nil : ¬ Faulty [] := by
  intro given
  obtain ⟨l, member, _⟩ | ⟨b, ⟨l, member, _⟩, _⟩ | ⟨l, m, pair, _⟩ := given
  · cases member
  · cases member
  · cases List.infix_nil.mp pair

/-- A text is refused if its first block starts too early or if it is faulty. -/
theorem encodeBlockLines_eq_error (next : Nat)
    (small : ∀ b, Listed lines b → b.first ≤ lastCodepoint ∧ b.last ≤ lastCodepoint) :
    (∃ text, encodeBlockLines next lines = .error (.malformedLine text)) ↔
      StartsBefore next lines ∨ Faulty lines := by
  fun_induction encodeBlockLines next lines with
  | case1 => simp [StartsBefore, not_faulty_nil]
  | case2 next line lines unread =>
    have none (b : BlockLine) : ¬ b.Written line := by
      intro written
      obtain ⟨lower, upper⟩ := small b (listed_cons.mpr (.inl written))
      cases unread.symm.trans (written.read? lower upper)
    exact ⟨fun _ => .inr (.inl ⟨line, List.mem_cons_self, none⟩), fun _ => ⟨_, rfl⟩⟩
  | case3 next line lines b read wrong =>
    have written := BlockLine.written_of_read? read
    refine ⟨fun _ => ?_, fun _ => ⟨_, rfl⟩⟩
    obtain early | inverted := wrong
    · exact .inl ⟨line, rfl, b, written, early⟩
    · exact .inr (.inr (.inl ⟨b, ⟨line, List.mem_cons_self, written⟩, inverted⟩))
  | case4 next line lines b read right ih =>
    rw [not_or, Nat.not_lt, Nat.not_lt] at right
    have written := BlockLine.written_of_read? read
    have notEarly : ¬ StartsBefore next (line :: lines) := by
      intro given
      obtain ⟨_, head, a, other, early⟩ := given
      cases head
      rw [other.unique written] at early
      omega
    rw [faulty_cons written right.2, ← ih fun a listed => small a (listed_cons.mpr (.inr listed))]
    simp only [notEarly, false_or]
    cases encodeBlockLines (b.last + 1) lines <;> simp [Except.map]

/-- A text is packed or refused because of one of its lines. -/
theorem encodeBlockLines_cases (next : Nat) (lines : List (List Char)) :
    (∃ packed, encodeBlockLines next lines = .ok packed) ∨
      ∃ line ∈ lines, encodeBlockLines next lines = .error (.malformedLine (String.ofList line)) := by
  fun_induction encodeBlockLines next lines with
  | case1 => exact .inl ⟨_, rfl⟩
  | case2 next line lines => exact .inr ⟨line, List.mem_cons_self, rfl⟩
  | case3 next line lines => exact .inr ⟨line, List.mem_cons_self, rfl⟩
  | case4 next line lines b _ _ ih =>
    obtain ⟨packed, done⟩ | ⟨other, member, refused⟩ := ih
    · exact .inl ⟨_, by rw [done]; rfl⟩
    · exact .inr ⟨other, List.mem_cons_of_mem line member, by rw [refused]; rfl⟩

def Follow (next : Nat) : List BlockLine → Prop
  | [] => True
  | b :: bs => next ≤ b.first ∧ b.first ≤ b.last ∧ Follow (b.last + 1) bs

def packBlocks (next : Nat) : List BlockLine → List (Option String × Nat)
  | [] => []
  | b :: bs =>
    (if b.first = next then [] else [(none, b.first - next)]) ++
      (some (packedName b.name), b.last - b.first + 1) :: packBlocks (b.last + 1) bs

theorem listed_iff_mem {bs : List BlockLine} (written : List.Forall₂ BlockLine.Written bs lines)
    {b : BlockLine} : Listed lines b ↔ b ∈ bs := by
  induction written with
  | nil => simp [Listed]
  | cons first _ ih =>
    have here : b.Written _ ↔ b = _ := ⟨fun other => other.unique first, fun same => same ▸ first⟩
    rw [listed_cons, ih, List.mem_cons, here]

theorem encodeBlockLines_eq_ok {next : Nat} {packed : BlockTable}
    (accepted : encodeBlockLines next lines = .ok packed) :
    ∃ bs, List.Forall₂ BlockLine.Written bs lines ∧ Follow next bs ∧
      packed = ⟨(packBlocks next bs).map Prod.fst, (packBlocks next bs).map Prod.snd⟩ := by
  fun_induction encodeBlockLines next lines generalizing packed with
  | case1 =>
    cases accepted
    exact ⟨[], .nil, trivial, rfl⟩
  | case2 => cases accepted
  | case3 => cases accepted
  | case4 next line lines b read right ih =>
    rw [not_or, Nat.not_lt, Nat.not_lt] at right
    cases done : encodeBlockLines (b.last + 1) lines with
    | error e =>
      rw [done] at accepted
      cases accepted
    | ok rest =>
      rw [done] at accepted
      cases accepted
      obtain ⟨bs, written, follow, form⟩ := ih done
      refine ⟨b :: bs, .cons (BlockLine.written_of_read? read) written, ⟨right.1, right.2, follow⟩, ?_⟩
      rw [form]
      by_cases start : b.first = next <;> simp [packBlocks, start]

theorem encodeBlocks_eq (data : List Char) :
    encodeBlocks data = encodeBlockLines 0 (blockLines data) := by
  rw [encodeBlocks, blockLines, dataLines, List.filter_filter]
  simp [Bool.and_comm]

theorem one_le_of_mem_packBlocks {next : Nat} {bs : List BlockLine} (follow : Follow next bs)
    {entry : Option String × Nat} (member : entry ∈ packBlocks next bs) : 1 ≤ entry.2 := by
  induction bs generalizing next with
  | nil => cases member
  | cons b bs ih =>
    obtain ⟨low, _, follow⟩ := follow
    simp only [packBlocks, List.mem_append, List.mem_cons, List.mem_ite_nil_left, List.not_mem_nil,
      or_false] at member
    obtain ⟨gap, rfl⟩ | rfl | member := member
    · simp only
      omega
    · exact Nat.le_add_left 1 _
    · exact ih follow member

end Unicode

end SchemaRegex

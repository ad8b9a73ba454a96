import SchemaRegex.Proofs.Unicode.RunText

/-!
# The records of a table

A record is a symbol for the kind, with a bit for the form, and one symbol or four for the length. Every
text begins with a frame, which is a record if its kind exists, or stops inside of one (`frame_or_part`).
So it is the text of some records, and these are what is read, or it has a first defect, and this is what
is reported (`records_or_defect`).
-/

namespace SchemaRegex.Unicode

inductive Stops : List Char → TableError → Prop
  | ended : Stops [] .truncated
  | foreign {c : Char} {rest : List Char} (foreign : c ∉ symbols) : Stops (c :: rest) (.invalidSymbol c)

theorem symbolOf_mem (n : Nat) : symbolOf n ∈ symbols := by
  have known := symbolValue?_symbolOf n
  rw [symbolValue?, List.idxOf?_eq_some_iff] at known
  exact List.mem_of_getElem known.2.1

theorem exists_symbolOf {c : Char} (known : c ∈ symbols) : ∃ d : Fin 64, symbolOf d = c := by
  obtain ⟨i, inside, same⟩ := List.getElem_of_mem known
  have below : i < 64 := by
    rw [symbols_eq] at inside
    exact inside
  refine ⟨⟨i, below⟩, ?_⟩
  rw [symbolOf, Nat.mod_eq_of_lt below, List.getD_eq_getElem?_getD, List.getElem?_eq_getElem inside,
    same, Option.getD_some]

theorem symbol_or_stops (text : List Char) :
    (∃ (d : Fin 64) (rest : List Char), text = symbolOf d :: rest) ∨ ∃ e, Stops text e := by
  cases text with
  | nil => exact .inr ⟨_, .ended⟩
  | cons c rest =>
    by_cases known : c ∈ symbols
    · obtain ⟨d, same⟩ := exists_symbolOf known
      exact .inl ⟨d, rest, by rw [same]⟩
    · exact .inr ⟨_, .foreign known⟩

theorem Stops.readSymbol_eq {text : List Char} {e : TableError} (stops : Stops text e) :
    readSymbol text = .error e := by
  cases stops with
  | ended => rfl
  | foreign foreign =>
    have none : symbolValue? _ = none := List.idxOf?_eq_none_iff.mpr foreign
    rw [readSymbol, none]

def written (digits : List (Fin 64)) : List Char := digits.map fun d : Fin 64 => symbolOf d

theorem written_cons (d : Fin 64) (digits : List (Fin 64)) :
    written (d :: digits) = symbolOf d :: written digits := rfl

theorem readSymbol_fin (d : Fin 64) (rest : List Char) :
    readSymbol (symbolOf d :: rest) = .ok (d.val, rest) := by
  rw [readSymbol_symbolOf, Nat.mod_eq_of_lt d.isLt]

theorem readDigits_written (digits : List (Fin 64)) (rest : List Char) :
    readDigits digits.length (written digits ++ rest) = .ok (digits.map Fin.val, rest) := by
  induction digits with
  | nil => rfl
  | cons d digits ih =>
    rw [List.length_cons, written_cons, List.cons_append, readDigits, readSymbol_fin]
    simp only [bind, Except.bind, ih]
    rfl

theorem readDigits_stops {digits : List (Fin 64)} {n : Nat} (fewer : digits.length < n) {tail : List Char}
    {e : TableError} (stops : Stops tail e) : readDigits n (written digits ++ tail) = .error e := by
  induction n generalizing digits with
  | zero => cases fewer
  | succ n ih =>
    rw [readDigits]
    cases digits with
    | nil =>
      rw [written, List.map_nil, List.nil_append, stops.readSymbol_eq]
      rfl
    | cons d digits =>
      rw [written_cons, List.cons_append, readSymbol_fin]
      simp only [bind, Except.bind, ih (Nat.lt_of_succ_lt_succ fewer)]

theorem digits_or_stops (n : Nat) (text : List Char) :
    (∃ digits rest, digits.length = n ∧ text = written digits ++ rest) ∨
      ∃ digits tail e, digits.length < n ∧ Stops tail e ∧ text = written digits ++ tail := by
  induction n generalizing text with
  | zero => exact .inl ⟨[], text, rfl, rfl⟩
  | succ n ih =>
    obtain ⟨d, rest, same⟩ | ⟨e, stops⟩ := symbol_or_stops text
    · subst same
      obtain ⟨digits, behind, count, same⟩ | ⟨digits, tail, e, fewer, stops, same⟩ := ih rest
      · exact .inl ⟨d :: digits, behind, congrArg (· + 1) count, by rw [same]; rfl⟩
      · exact .inr ⟨d :: digits, tail, e, Nat.succ_lt_succ fewer, stops, by rw [same]; rfl⟩
    · exact .inr ⟨[], text, e, Nat.succ_pos n, stops, rfl⟩

/-- A symbol, and those of a length: one, or four if bit 5 of the first is set. -/
structure Frame where
  head : Fin 64
  digits : List (Fin 64)
  count : digits.length = if 32 ≤ head.val then 4 else 1

namespace Frame

def code (f : Frame) : Nat := f.head.val % 32

def text (f : Frame) : List Char := written (f.head :: f.digits)

def length (f : Frame) : Nat := 1 + Nat.ofDigits 64 (f.digits.map Fin.val)

theorem text_ne_nil (f : Frame) : f.text ≠ [] := List.cons_ne_nil _ _

end Frame

def Part (part : List Char) : Prop := ∃ f : Frame, part <+: f.text ∧ part ≠ f.text

theorem readRun_frame (f : Frame) (rest : List Char) :
    readRun (f.text ++ rest) =
      match RunKind.ofCode? f.code with
      | none => .error (.invalidCategory (f.code - 2))
      | some kind => .ok (⟨kind, f.length⟩, rest) := by
  have digits := readDigits_written f.digits rest
  rw [f.count] at digits
  simp only [readRun, Frame.text, written_cons, List.cons_append, readSymbol_fin, readLength_eq, bind,
    Except.bind, decide_eq_true_eq, digits]
  rfl

theorem readRun_part {part tail : List Char} {e : TableError} (inside : Part part) (stops : Stops tail e) :
    readRun (part ++ tail) = .error e := by
  obtain ⟨f, front, proper⟩ := inside
  obtain ⟨values, begins, same⟩ := List.prefix_map_iff.mp front
  subst same
  cases values with
  | nil =>
    rw [List.map_nil, List.nil_append, readRun, stops.readSymbol_eq]
    rfl
  | cons d digits =>
    obtain ⟨same, others⟩ := List.cons_prefix_cons.mp begins
    subst same
    have fewer : digits.length < f.digits.length := by
      apply Nat.lt_of_le_of_ne others.length_le
      intro all
      exact proper (by rw [others.eq_of_length all]; rfl)
    rw [f.count] at fewer
    change readRun (symbolOf f.head :: (written digits ++ tail)) = _
    simp only [readRun, readSymbol_fin, readLength_eq, bind, Except.bind, decide_eq_true_eq,
      readDigits_stops fewer stops]
    rfl

theorem frame_or_part (text : List Char) :
    (∃ (f : Frame) (rest : List Char), text = f.text ++ rest) ∨
      ∃ part tail e, Part part ∧ Stops tail e ∧ text = part ++ tail := by
  obtain ⟨head, rest, same⟩ | ⟨e, stops⟩ := symbol_or_stops text
  · subst same
    obtain ⟨digits, behind, count, same⟩ | ⟨digits, tail, e, fewer, stops, same⟩ :=
      digits_or_stops (if 32 ≤ head.val then 4 else 1) rest
    · subst same
      exact .inl ⟨⟨head, digits, count⟩, behind, rfl⟩
    · subst same
      -- Any symbols will do for those that are not there.
      let others := List.replicate ((if 32 ≤ head.val then 4 else 1) - digits.length) (0 : Fin 64)
      have count : (digits ++ others).length = if 32 ≤ head.val then 4 else 1 := by
        rw [List.length_append, List.length_replicate, Nat.add_sub_cancel' (Nat.le_of_lt fewer)]
      refine .inr ⟨written (head :: digits), tail, e, ⟨⟨head, digits ++ others, count⟩, ?_, ?_⟩, stops, rfl⟩
      · exact List.IsPrefix.map _ (List.cons_prefix_cons.mpr ⟨rfl, List.prefix_append digits others⟩)
      · intro all
        have lengths := congrArg List.length all
        simp only [Frame.text, written, List.length_map, List.length_cons, count] at lengths
        omega
  · exact .inr ⟨[], text, e, ⟨⟨0, [0], rfl⟩, List.nil_prefix, nofun⟩, stops, rfl⟩

structure Record extends Frame where
  kind : RunKind
  coded : toFrame.code = kind.code

def Record.run (r : Record) : Run := ⟨r.kind, r.length⟩

def recordText (records : List Record) : List Char := records.flatMap fun r => r.text

theorem recordText_cons (r : Record) (records : List Record) :
    recordText (r :: records) = r.text ++ recordText records := rfl

theorem readRun_record (r : Record) (rest : List Char) :
    readRun (r.text ++ rest) = .ok (r.run, rest) := by
  rw [readRun_frame, r.coded, RunKind.ofCode?_code]
  rfl

theorem RunKind.exists_code {code : Nat} (below : code < 31) : ∃ kind : RunKind, kind.code = code := by
  have table : ∀ code < 31, (ofCode? code).map RunKind.code = some code := by decide
  obtain ⟨kind, _, same⟩ := Option.map_eq_some_iff.mp (table code below)
  exact ⟨kind, same⟩

theorem record_or_unknown (f : Frame) : (∃ r : Record, r.toFrame = f) ∨ f.code = 31 := by
  have below : f.code < 32 := Nat.mod_lt _ (by decide)
  by_cases last : f.code = 31
  · exact .inr last
  · obtain ⟨kind, coded⟩ := RunKind.exists_code (Nat.lt_of_le_of_ne (Nat.le_of_lt_succ below) last)
    exact .inl ⟨⟨f, kind, coded.symm⟩, rfl⟩

theorem readRuns_recordText (records : List Record) (rest : List Char) :
    readRuns (recordText records ++ rest) = (readRuns rest).map (records.map Record.run ++ ·) := by
  induction records with
  | nil =>
    cases others : readRuns rest with
    | error e => exact others
    | ok runs => exact others
  | cons r records ih =>
    have first := readRun_record r (recordText records ++ rest)
    rw [recordText_cons, List.append_assoc, readRuns_of_readRun first, ih]
    cases readRuns rest with
    | error e => rfl
    | ok runs => rfl

theorem readRuns_records (records : List Record) :
    readRuns (recordText records) = .ok (records.map Record.run) := by
  have read := readRuns_recordText records []
  rw [List.append_nil, readRuns_nil, Except.map, List.append_nil] at read
  exact read

/-- What is wrong first with a text, read from the left, behind some whole records. -/
inductive FirstDefect : List Char → TableError → Prop
  | symbol (records : List Record) {part rest : List Char} {c : Char} (inside : Part part)
    (known : ∀ x ∈ recordText records ++ part, x ∈ symbols) (foreign : c ∉ symbols) :
    FirstDefect (recordText records ++ part ++ c :: rest) (.invalidSymbol c)
  | ended (records : List Record) {part : List Char} (inside : Part part) (begun : part ≠ []) :
    FirstDefect (recordText records ++ part) .truncated
  | kind (records : List Record) {f : Frame} {rest : List Char} (unknown : f.code = 31) :
    FirstDefect (recordText records ++ f.text ++ rest) (.invalidCategory 29)

theorem Frame.known (f : Frame) : ∀ x ∈ f.text, x ∈ symbols := by
  intro x member
  obtain ⟨d, _, same⟩ := List.mem_map.mp member
  exact same ▸ symbolOf_mem d

theorem Part.known {part : List Char} (inside : Part part) : ∀ x ∈ part, x ∈ symbols := by
  obtain ⟨f, front, _⟩ := inside
  exact fun x member => f.known x (front.subset member)

theorem FirstDefect.cons {text : List Char} {e : TableError} (r : Record) (defect : FirstDefect text e) :
    FirstDefect (r.text ++ text) e := by
  cases defect with
  | @symbol records part _ _ inside known foreign =>
    have all : ∀ x ∈ recordText (r :: records) ++ part, x ∈ symbols := by
      rw [recordText_cons, List.append_assoc, List.forall_mem_append]
      exact ⟨r.known, known⟩
    simpa [recordText_cons] using FirstDefect.symbol (r :: records) inside all foreign
  | ended records inside begun =>
    simpa [recordText_cons] using FirstDefect.ended (r :: records) inside begun
  | kind records unknown => simpa [recordText_cons] using FirstDefect.kind (r :: records) unknown

theorem FirstDefect.readRuns_eq {text : List Char} {e : TableError} (defect : FirstDefect text e) :
    readRuns text = .error e := by
  cases defect with
  | @symbol records part rest c inside known foreign =>
    have failed : readRun (part ++ c :: rest) = _ := readRun_part inside (.foreign foreign)
    rw [List.append_assoc, readRuns_recordText, readRuns_of_failed (by simp) failed]
    rfl
  | ended records inside begun =>
    have failed := readRun_part inside .ended
    rw [List.append_nil] at failed
    rw [readRuns_recordText, readRuns_of_failed begun failed]
    rfl
  | @kind records f rest unknown =>
    have failed := readRun_frame f rest
    rw [unknown] at failed
    rw [List.append_assoc, readRuns_recordText,
      readRuns_of_failed (List.append_ne_nil_of_left_ne_nil f.text_ne_nil rest) failed]
    rfl

theorem records_or_defect (text : List Char) :
    (∃ records, text = recordText records) ∨ ∃ e, FirstDefect text e := by
  by_cases nonempty : text = []
  · exact .inl ⟨[], nonempty⟩
  obtain ⟨f, rest, same⟩ | ⟨part, tail, e, inside, stops, same⟩ := frame_or_part text
  · have shorter : rest.length < text.length := by
      rw [same, List.length_append]
      exact Nat.lt_add_of_pos_left (List.length_pos_iff.mpr f.text_ne_nil)
    rw [same]
    obtain ⟨r, own⟩ | unknown := record_or_unknown f
    · rw [← own]
      obtain ⟨records, others⟩ | ⟨e, defect⟩ := records_or_defect rest
      · exact .inl ⟨r :: records, by rw [others, recordText_cons]⟩
      · exact .inr ⟨e, defect.cons r⟩
    · exact .inr ⟨_, .kind [] unknown⟩
  · subst same
    cases stops with
    | ended =>
      rw [List.append_nil] at nonempty ⊢
      exact .inr ⟨_, .ended [] inside nonempty⟩
    | foreign foreign => exact .inr ⟨_, .symbol [] inside inside.known foreign⟩
termination_by text.length

/-- Every run that is read covers something. -/
theorem positive_of_records (records : List Record) : ∀ run ∈ records.map Record.run, 0 < run.length := by
  intro run member
  obtain ⟨r, _, same⟩ := List.mem_map.mp member
  rw [← same]
  exact Nat.lt_of_lt_of_le Nat.one_pos (Nat.le_add_right 1 _)

theorem positive_of_readRuns {text : List Char} {runs : List Run} (read : readRuns text = .ok runs) :
    ∀ run ∈ runs, 0 < run.length := by
  obtain ⟨records, same⟩ | ⟨e, defect⟩ := records_or_defect text
  · rw [same, readRuns_records] at read
    cases read
    exact positive_of_records records
  · cases read.symm.trans defect.readRuns_eq

end SchemaRegex.Unicode

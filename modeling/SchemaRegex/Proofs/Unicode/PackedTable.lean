import Mathlib.Data.Nat.Digits.Defs
import SchemaRegex.Unicode.CategoryTable
import SchemaRegex.Unicode.Data.Categories

/-!
# The packed table is well-formed

Whether a packed table can be read is decided by one pass over its symbols, with the number of
symbols that the present run still needs. The pass is cheap enough to be made over the whole table of
Unicode 14.0.0 (`readRuns_packedCategories`).
-/

namespace SchemaRegex.Unicode

def symbolNumber? (c : Char) : Option Nat :=
  if 'A' ≤ c ∧ c ≤ 'Z' then some (c.toNat - 65)
  else if 'a' ≤ c ∧ c ≤ 'z' then some (c.toNat - 71)
  else if '0' ≤ c ∧ c ≤ '9' then some (c.toNat + 4)
  else if c = '+' then some 62
  else if c = '/' then some 63
  else none

theorem symbols_eq : symbols =
    ['A', 'B', 'C', 'D', 'E', 'F', 'G', 'H', 'I', 'J', 'K', 'L', 'M', 'N', 'O', 'P', 'Q', 'R', 'S', 'T',
      'U', 'V', 'W', 'X', 'Y', 'Z', 'a', 'b', 'c', 'd', 'e', 'f', 'g', 'h', 'i', 'j', 'k', 'l', 'm', 'n',
      'o', 'p', 'q', 'r', 's', 't', 'u', 'v', 'w', 'x', 'y', 'z', '0', '1', '2', '3', '4', '5', '6', '7',
      '8', '9', '+', '/'] := String.toList_ofList

theorem symbolValue?_of_number {c : Char} {v : Nat} (number : symbolNumber? c = some v) :
    symbolValue? c = some v := by
  have table : ∀ n < 123, symbolNumber? (Char.ofNat n) = none ∨
      symbolNumber? (Char.ofNat n) = symbolValue? (Char.ofNat n) := by
    simp only [symbolValue?, symbols_eq]
    decide +kernel
  have small : c.toNat < 123 := by
    have upper (d : Char) (le : c ≤ d) : c.toNat ≤ d.toNat := le
    unfold symbolNumber? at number
    split at number
    · rename_i range
      exact Nat.lt_of_le_of_lt (upper 'Z' range.2) (by decide)
    split at number
    · rename_i range
      exact Nat.lt_of_le_of_lt (upper 'z' range.2) (by decide)
    split at number
    · rename_i range
      exact Nat.lt_of_le_of_lt (upper '9' range.2) (by decide)
    split at number
    · rename_i same
      rw [same]
      decide
    split at number
    · rename_i same
      rw [same]
      decide
    · cases number
  have entry := table c.toNat small
  rw [Char.ofNat_toNat, number] at entry
  obtain none | same := entry
  · cases none
  · exact same.symm

def readDigits : Nat → List Char → Except TableError (List Nat × List Char)
  | 0, text => pure ([], text)
  | n + 1, text => do
    let (digit, rest) ← readSymbol text
    let (digits, rest) ← readDigits n rest
    return (digit :: digits, rest)

theorem readLength_eq (long : Bool) (text : List Char) :
    readLength long text =
      (fun read => (1 + Nat.ofDigits 64 read.1, read.2)) <$> readDigits (if long then 4 else 1) text := by
  cases long with
  | false => simp [readLength, readDigits, Nat.ofDigits_cons]
  | true => simp [readLength, readDigits, Nat.ofDigits_cons, Nat.mul_add, Nat.add_assoc, ← Nat.mul_assoc]

/-- Passes over some symbols, where the present run still needs `pending` ones, and gives how many it
needs behind them; nothing if a symbol or a kind does not exist. -/
def scan : Nat → List Char → Option Nat
  | pending, [] => some pending
  | 0, c :: rest =>
    (symbolNumber? c).bind fun head =>
      if head % 32 < 31 then scan (if 32 ≤ head then 4 else 1) rest else none
  | pending + 1, c :: rest => (symbolNumber? c).bind fun _ => scan pending rest

theorem scan_append (pending : Nat) (front rest : List Char) :
    scan pending (front ++ rest) = (scan pending front).bind (scan · rest) := by
  induction front generalizing pending with
  | nil =>
    rw [scan.eq_def pending []]
    cases pending <;> rfl
  | cons c front ih =>
    cases pending with
    | zero =>
      rw [List.cons_append, scan, scan]
      cases symbolNumber? c with
      | none => rfl
      | some head =>
        simp only [Option.bind_some]
        split
        · exact ih _
        · rfl
    | succ pending =>
      rw [List.cons_append, scan, scan]
      cases symbolNumber? c with
      | none => rfl
      | some _ => exact ih pending

theorem readSymbol_of_scan {pending : Nat} {text : List Char} (ok : scan (pending + 1) text = some 0) :
    ∃ value rest, readSymbol text = .ok (value, rest) ∧ scan pending rest = some 0 := by
  cases text with
  | nil => cases ok
  | cons c rest =>
    rw [scan, Option.bind_eq_some_iff] at ok
    obtain ⟨value, number, ok⟩ := ok
    exact ⟨value, rest, by rw [readSymbol, symbolValue?_of_number number], ok⟩

theorem readHead_of_scan {text : List Char} (nonempty : text ≠ []) (ok : scan 0 text = some 0) :
    ∃ head rest, readSymbol text = .ok (head, rest) ∧ head % 32 < 31 ∧
      scan (if 32 ≤ head then 4 else 1) rest = some 0 := by
  cases text with
  | nil => contradiction
  | cons c rest =>
    rw [scan, Option.bind_eq_some_iff] at ok
    obtain ⟨head, number, ok⟩ := ok
    split at ok
    · rename_i kind
      exact ⟨head, rest, by rw [readSymbol, symbolValue?_of_number number], kind, ok⟩
    · cases ok

theorem readDigits_of_scan {n : Nat} {text : List Char} (ok : scan n text = some 0) :
    ∃ digits rest, readDigits n text = .ok (digits, rest) ∧ scan 0 rest = some 0 := by
  induction n generalizing text with
  | zero => exact ⟨[], text, rfl, ok⟩
  | succ n ih =>
    obtain ⟨digit, behind, first, ok⟩ := readSymbol_of_scan ok
    obtain ⟨digits, rest, others, ok⟩ := ih ok
    refine ⟨digit :: digits, rest, ?_, ok⟩
    rw [readDigits, first]
    simp only [bind, Except.bind, others]
    rfl

theorem readLength_of_scan {long : Bool} {text : List Char}
    (ok : scan (if long then 4 else 1) text = some 0) :
    ∃ length rest, readLength long text = .ok (length, rest) ∧ scan 0 rest = some 0 := by
  obtain ⟨digits, rest, read, ok⟩ := readDigits_of_scan ok
  refine ⟨1 + Nat.ofDigits 64 digits, rest, ?_, ok⟩
  rw [readLength_eq, read]
  rfl

theorem ofCode?_isSome {code : Nat} (small : code < 31) : ∃ kind, RunKind.ofCode? code = some kind := by
  have table : ∀ code < 31, (RunKind.ofCode? code).isSome := by decide
  exact Option.isSome_iff_exists.mp (table code small)

theorem readRun_of_scan {text : List Char} (nonempty : text ≠ []) (ok : scan 0 text = some 0) :
    ∃ run rest, readRun text = .ok (run, rest) ∧ scan 0 rest = some 0 := by
  obtain ⟨head, behind, readHead, small, ok⟩ := readHead_of_scan nonempty ok
  have form : (if 32 ≤ head then 4 else 1) = if decide (32 ≤ head) then 4 else 1 := by simp
  rw [form] at ok
  obtain ⟨length, rest, read, ok⟩ := readLength_of_scan ok
  obtain ⟨kind, code⟩ := ofCode?_isSome small
  refine ⟨⟨kind, length⟩, rest, ?_, ok⟩
  simp only [readRun, readHead, read, code, bind, Except.bind, pure, Except.pure]

theorem readRuns_of_scan {text : List Char} (ok : scan 0 text = some 0) :
    ∃ runs, readRuns text = .ok runs := by
  fun_induction readRuns text with
  | case1 => exact ⟨[], rfl⟩
  | case2 text nonempty e failed =>
    obtain ⟨run, rest, read, _⟩ := readRun_of_scan nonempty ok
    cases failed.symm.trans read
  | case3 text nonempty run rest read ih =>
    obtain ⟨_, _, same, ok⟩ := readRun_of_scan nonempty ok
    cases read.symm.trans same
    obtain ⟨runs, others⟩ := ih ok
    exact ⟨run :: runs, by rw [others]; rfl⟩

def scanPieces (state : Option Nat) : List String → Option Nat
  | [] => state
  | piece :: pieces => scanPieces (state.bind (scan · piece.toList)) pieces

theorem scanPieces_eq (state : Option Nat) (pieces : List String) :
    scanPieces state pieces = state.bind (scan · (pieces.flatMap String.toList)) := by
  induction pieces generalizing state with
  | nil =>
    cases state with
    | none => rfl
    | some pending => cases pending <;> rfl
  | cons piece pieces ih =>
    rw [scanPieces, ih, List.flatMap_cons]
    cases state with
    | none => rfl
    | some pending => exact (scan_append pending _ _).symm

theorem scanPieces_cons {state : Option Nat} {piece : List Char} {pieces : List String}
    {last : Option Nat} (rest : scanPieces (state.bind (scan · piece)) pieces = last) :
    scanPieces state (String.ofList piece :: pieces) = last := by
  rw [scanPieces, String.toList_ofList]
  exact rest

theorem scan_packedCategories : scanPieces (some 0) packedCategories = some 0 := by
  unfold packedCategories
  -- The pieces become lists of characters one by one; the pass itself is left to the kernel.
  repeat apply scanPieces_cons
  rw [scanPieces]
  decide +kernel

theorem readRuns_of_scanPieces {pieces : List String} (ok : scanPieces (some 0) pieces = some 0) :
    ∃ runs, readRuns (pieces.flatMap String.toList) = .ok runs := by
  rw [scanPieces_eq] at ok
  exact readRuns_of_scan ok

theorem readRuns_packedCategories :
    ∃ runs, readRuns (packedCategories.flatMap String.toList) = .ok runs :=
  readRuns_of_scanPieces scan_packedCategories

end SchemaRegex.Unicode

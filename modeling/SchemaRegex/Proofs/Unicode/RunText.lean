import SchemaRegex.Proofs.Unicode.PackedTable
import SchemaRegex.Unicode.CategoryData

/-!
# Runs as symbols

A run of up to 0x1000000 codepoints is written in two or five symbols and reads back, whatever follows it.
So the runs of a text that was written are the runs it was written for (`readRuns_write`).
-/

namespace SchemaRegex.Unicode

theorem symbolValue?_symbolOf (n : Nat) : symbolValue? (symbolOf n) = some (n % 64) := by
  have table : ∀ i < 64, symbolValue? (symbols.getD i 'A') = some i := by
    simp only [symbolValue?, symbols_eq]
    decide +kernel
  exact table (n % 64) (Nat.mod_lt n (by decide))

theorem readSymbol_symbolOf (n : Nat) (rest : List Char) :
    readSymbol (symbolOf n :: rest) = .ok (n % 64, rest) := by
  rw [readSymbol, symbolValue?_symbolOf]

theorem RunKind.code_lt (kind : RunKind) : kind.code < 31 := by
  cases kind with
  | alternating => decide
  | gap => decide
  | category c =>
    have small := c.index_lt
    simp only [code]
    omega

@[simp] theorem RunKind.ofCode?_code (kind : RunKind) : ofCode? kind.code = some kind := by
  cases kind with
  | alternating => rfl
  | gap => rfl
  | category c => simp [code, ofCode?]

/-- A run of `rest + 1` codepoints reads back from its symbols. -/
theorem readRun_writeRun (kind : RunKind) {rest : Nat} (short : rest < 0x1000000) (behind : List Char) :
    readRun (writeRun kind rest ++ behind) = .ok (⟨kind, rest + 1⟩, behind) := by
  have small := kind.code_lt
  by_cases one : rest < 64
  · have head : kind.code % 64 = kind.code := Nat.mod_eq_of_lt (by omega)
    have code : kind.code % 32 = kind.code := Nat.mod_eq_of_lt (by omega)
    have value : 1 + rest % 64 = rest + 1 := by omega
    have form : decide (32 ≤ kind.code) = false := decide_eq_false (by omega)
    simp [readRun, readLength, writeRun, one, readSymbol_symbolOf, head, form, code, value, bind,
      Except.bind, pure, Except.pure]
  · have head : (kind.code + 32) % 64 = kind.code + 32 := Nat.mod_eq_of_lt (by omega)
    have code : (kind.code + 32) % 32 = kind.code := by omega
    have value : 1 + rest % 64 + 64 * (rest / 64 % 64) + 4096 * (rest / 4096 % 64) +
        262144 * (rest / 262144 % 64) = rest + 1 := by omega
    simp [readRun, readLength, writeRun, one, readSymbol_symbolOf, head, code, value, bind,
      Except.bind, pure, Except.pure]

theorem readRuns_nil : readRuns [] = .ok [] := by
  rw [readRuns, if_pos rfl]

theorem readRuns_of_readRun {text rest : List Char} {run : Run} (read : readRun text = .ok (run, rest)) :
    readRuns text = (readRuns rest).map (run :: ·) := by
  have nonempty : text ≠ [] := by
    intro empty
    subst empty
    cases read
  rw [readRuns, if_neg nonempty]
  split
  · rename_i e failed
    cases failed.symm.trans read
  · rename_i other behind same
    cases same.symm.trans read
    rfl

theorem readRuns_of_failed {text : List Char} {e : TableError} (nonempty : text ≠ [])
    (failed : readRun text = .error e) : readRuns text = .error e := by
  rw [readRuns, if_neg nonempty]
  split
  · rename_i other same
    cases same.symm.trans failed
    rfl
  · rename_i run rest read
    cases read.symm.trans failed

def Run.write (run : Run) : List Char := writeRun run.kind (run.length - 1)

theorem readRuns_write {runs : List Run}
    (lengths : ∀ run ∈ runs, 0 < run.length ∧ run.length ≤ 0x1000000) :
    readRuns (runs.flatMap Run.write) = .ok runs := by
  induction runs with
  | nil => exact readRuns_nil
  | cons run runs ih =>
    obtain ⟨positive, short⟩ := lengths run List.mem_cons_self
    have others := ih fun other member => lengths other (List.mem_cons_of_mem run member)
    have first : readRun (run.write ++ runs.flatMap Run.write) = .ok (run, runs.flatMap Run.write) := by
      have same : run.length - 1 + 1 = run.length := by omega
      rw [Run.write, readRun_writeRun run.kind (by omega), same]
    rw [List.flatMap_cons, readRuns_of_readRun first, others]
    rfl

end SchemaRegex.Unicode

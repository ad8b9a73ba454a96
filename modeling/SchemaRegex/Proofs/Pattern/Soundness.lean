import SchemaRegex.Pattern.Grammar
import SchemaRegex.Proofs.Pattern.Derivation

/-!
# What is read is derived

Whatever a reader of the grammar takes has a derivation, also where it came to it after trying
something else (`derivesRegex_of_takes`).
-/

namespace SchemaRegex.Pattern

open Reader

variable {s : Settings} {n : Nat}

def groupReader (s : Settings) : Nat → Option (Reader Regex)
  | 0 => none
  | depth + 1 => some (regexp s depth)

theorem regexp_eq (s : Settings) (n : Nat) :
    regexp s n = branches s (atom s (classExpr s n) (groupReader s n)) := by
  funext input
  cases n with
  | zero => rw [regexp, groupReader]
  | succ n => rw [regexp, groupReader]

theorem takes_normalChar {d : Dialect} {t v : List Char} {c : Char} :
    (normalChar d).Takes t c v ↔ t = c :: v ∧ c ∉ d.metacharacters := by
  simp only [normalChar, takes_satisfying, takes_anyChar, decide_eq_true_eq]

theorem derivesAtom_of_takes_charAtom {t v : List Char} {x : Atom}
    (takes : (charAtom s (classExpr s n)).Takes t x v) :
    ∃ w, t = w ++ v ∧ DerivesAtom s.dialect n w x := by
  obtain ⟨p, member, takes⟩ := exists_of_takes_firstOf takes
  simp only [List.mem_cons, List.not_mem_nil, or_false] at member
  obtain same | same | same | same := member <;> rw [same] at takes
  · obtain ⟨c, takes, value⟩ := takes_map.mp takes
    obtain ⟨w, read, escape⟩ := takes_escapedChar.mp takes
    exact ⟨w, read, value ▸ .charEscape escape⟩
  · obtain ⟨set, takes, value⟩ := takes_map.mp takes
    obtain ⟨w, read, escape⟩ := takes_classEscape.mp takes
    exact ⟨w, read, value ▸ .classEscape escape⟩
  · obtain ⟨set, takes, value⟩ := takes_map.mp takes
    obtain ⟨w, read⟩ := exists_of_takes_classExpr takes
    rw [read] at takes
    have same : s.dialect = ({ dialect := s.dialect } : Settings).dialect := rfl
    have alone : Takes (classExpr { dialect := s.dialect } n) ('[' :: w ++ []) set [] :=
      takes_classExpr_append same takes
    rw [List.append_nil] at alone
    exact ⟨'[' :: w, read, value ▸ .classExpr alone⟩
  · obtain ⟨⟨_, front⟩, value⟩ := takes_as.mp takes
    rw [takes_token] at front
    exact ⟨['.'], by simp [front], value ▸ .wildcard⟩

theorem derivesAtom_of_takes {t v : List Char} {x : Atom}
    (inside : ∀ p ∈ groupReader s n, ∀ t r v, p.Takes t r v →
      ∃ m w, n = m + 1 ∧ t = w ++ v ∧ DerivesRegex s.dialect m w r)
    (takes : (atom s (classExpr s n) (groupReader s n)).Takes t x v) :
    ∃ w, t = w ++ v ∧ DerivesAtom s.dialect n w x := by
  obtain ⟨p, member, takes⟩ := exists_of_takes_firstOf takes
  simp only [List.mem_cons, List.not_mem_nil, or_false] at member
  obtain same | same | same | same | same | same | same := member <;> rw [same] at takes
  · obtain ⟨c, takes, value⟩ := takes_map.mp takes
    obtain ⟨read, plain⟩ := takes_normalChar.mp takes
    exact ⟨[c], read, value ▸ .character plain⟩
  · exact derivesAtom_of_takes_charAtom takes
  · obtain ⟨xpath, takes⟩ := takes_guarded.mp takes
    obtain ⟨⟨_, front⟩, value⟩ := takes_as.mp takes
    rw [takes_token] at front
    exact ⟨['^'], by simp [front], value ▸ .startAnchor (of_decide_eq_true xpath)⟩
  · obtain ⟨xpath, takes⟩ := takes_guarded.mp takes
    obtain ⟨⟨_, front⟩, value⟩ := takes_as.mp takes
    rw [takes_token] at front
    exact ⟨['$'], by simp [front], value ▸ .endAnchor (of_decide_eq_true xpath)⟩
  · obtain ⟨_, takes⟩ := takes_guarded.mp takes
    obtain ⟨_, _, fails⟩ := takes_resolve.mp takes
    cases fails
  · obtain ⟨xpath, takes⟩ := takes_guarded.mp takes
    obtain ⟨r, takes, value⟩ := takes_map.mp takes
    obtain ⟨p, reader, u, front, takes⟩ := takes_enclosed.mp takes
    obtain ⟨m, w, depth, read, regex⟩ := inside p reader _ _ _ takes
    subst depth
    refine ⟨'(' :: '?' :: ':' :: w ++ [')'], by simp [front, read], ?_⟩
    exact value ▸ .plainGroup (of_decide_eq_true xpath) regex
  · obtain ⟨r, takes, value⟩ := takes_map.mp takes
    obtain ⟨p, reader, u, front, takes⟩ := takes_enclosed.mp takes
    obtain ⟨m, w, depth, read, regex⟩ := inside p reader _ _ _ takes
    subst depth
    exact ⟨'(' :: w ++ [')'], by simp [front, read], value ▸ .group regex⟩

variable {a : Reader Atom}

theorem derivesPiece_of_takes {t v : List Char} {p : Piece}
    (inside : ∀ {t x v}, a.Takes t x v → ∃ w, t = w ++ v ∧ DerivesAtom s.dialect n w x)
    (takes : (piece s a).Takes t p v) : ∃ w, t = w ++ v ∧ DerivesPiece s.dialect n w p := by
  obtain ⟨⟨x, quantity⟩, takes, value⟩ := takes_map.mp (takes_recorded.mp takes)
  obtain ⟨u, first, rest⟩ := takes_pair.mp takes
  obtain ⟨w, read, atom⟩ := inside first
  cases quantity with
  | none =>
    obtain ⟨_, more⟩ := takes_opt_none.mp rest
    exact ⟨w, by rw [read, more], value ▸ .once atom⟩
  | some q =>
    obtain ⟨y, more, text⟩ := quantifierText_of_takes (takes_opt_some.mp rest)
    exact ⟨w ++ y, by rw [read, more, List.append_assoc], value ▸ .quantified atom text⟩

theorem derivesBranch_of_takes {t v : List Char} {b : Branch}
    (inside : ∀ {t x v}, a.Takes t x v → ∃ w, t = w ++ v ∧ DerivesAtom s.dialect n w x)
    (takes : (branch s a).Takes t b v) : ∃ w, t = w ++ v ∧ DerivesBranch s.dialect n w b := by
  obtain ⟨ps, pieces, value⟩ := takes_map.mp takes
  rw [value]
  clear value takes
  induction ps generalizing t with
  | nil =>
    obtain ⟨_, same⟩ := takes_many_nil.mp pieces
    exact ⟨[], same.symm, .empty⟩
  | cons p ps ih =>
    obtain ⟨u, first, _, others⟩ := takes_many_cons.mp pieces
    obtain ⟨w, read, piece⟩ := derivesPiece_of_takes inside first
    obtain ⟨y, more, branch⟩ := ih others
    exact ⟨w ++ y, by rw [read, more, List.append_assoc], .piece piece branch⟩

theorem derivesRegex_of_takes_branches {t v : List Char} {r : Regex}
    (inside : ∀ {t x v}, a.Takes t x v → ∃ w, t = w ++ v ∧ DerivesAtom s.dialect n w x)
    (takes : (branches s a).Takes t r v) : ∃ w, t = w ++ v ∧ DerivesRegex s.dialect n w r := by
  obtain ⟨⟨b, bs⟩, both, value⟩ := takes_map.mp takes
  obtain ⟨u, first, others⟩ := takes_pair.mp both
  rw [value]
  clear value both takes
  induction bs generalizing t b u with
  | nil =>
    obtain ⟨_, same⟩ := takes_many_nil.mp others
    obtain ⟨w, read, branch⟩ := derivesBranch_of_takes inside first
    exact ⟨w, by rw [read, same], .branch branch⟩
  | cons c cs ih =>
    obtain ⟨w, read, branch⟩ := derivesBranch_of_takes inside first
    obtain ⟨x, second, _, others⟩ := takes_many_cons.mp others
    obtain ⟨_, y, bar, second⟩ := takes_skipThen.mp second
    have bar := takes_token.mp bar
    have second := takes_cut.mp second
    obtain ⟨z, more, regex⟩ := ih c x second others
    refine ⟨w ++ '|' :: z, ?_, .alternative branch regex⟩
    rw [read, bar, more]
    simp

/-- What an expression takes is derived. -/
theorem derivesRegex_of_takes {t v : List Char} {r : Regex} (takes : Takes (regexp s n) t r v) :
    ∃ w, t = w ++ v ∧ DerivesRegex s.dialect n w r := by
  induction n generalizing t v r with
  | zero =>
    rw [regexp_eq] at takes
    refine derivesRegex_of_takes_branches (fun first => derivesAtom_of_takes ?_ first) takes
    intro p reader
    cases reader
  | succ n ih =>
    rw [regexp_eq] at takes
    refine derivesRegex_of_takes_branches (fun first => derivesAtom_of_takes ?_ first) takes
    intro p reader t r v takes
    cases reader
    obtain ⟨w, read, regex⟩ := ih takes
    exact ⟨n, w, rfl, read, regex⟩

end SchemaRegex.Pattern

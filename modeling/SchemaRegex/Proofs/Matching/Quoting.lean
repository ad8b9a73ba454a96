import SchemaRegex.Proofs.Matching.Compiled
import SchemaRegex.Proofs.Matching.Substring
import SchemaRegex.Proofs.Program.Size

/-!
# Quoted texts

With a backslash before each metacharacter a text is a pattern that matches just itself: every metacharacter
has an escape, and no escape for one of them means anything else (`quoted_matches_itself`).
-/

namespace SchemaRegex

open Pattern

def quotedChar (d : Dialect) (c : Char) : List Char :=
  if c ∈ d.metacharacters then ['\\', c] else [c]

def quoted (d : Dialect) (text : String) : String :=
  String.ofList (text.toList.flatMap (quotedChar d))

def Regex.ofWord (w : List Nat) : Regex := ⟨[⟨w.map fun c => ⟨.literal c, .once⟩⟩]⟩

/-- A schema pattern has to match the whole subject, an XPath pattern a part of it. -/
def Dialect.Finds (text subject : String) : Dialect → Prop
  | .xsd => subject = text
  | .xpath => text.toList <:+: subject.toList

variable {d : Dialect} {n : Nat} {w : List Nat}

private theorem escapable_of_mem_metacharacters {c : Char} (special : c ∈ d.metacharacters) :
    c ∈ d.escapable := by
  have all : ∀ c ∈ d.metacharacters, c ∈ d.escapable := by
    cases d
    · simp [metacharacters_xsd, escapable_xsd]
    · simp [metacharacters_xpath, escapable_xpath]
  exact all c special

private theorem derivesPiece_quotedChar (c : Char) :
    DerivesPiece d n (quotedChar d c) ⟨.literal c.toNat, .once⟩ := by
  unfold quotedChar
  split
  · rename_i special
    exact .once (.charEscape (.itself (escapable_of_mem_metacharacters special)))
  · rename_i plain
    exact .once (.character plain)

private theorem derivesBranch_quoted (cs : List Char) :
    DerivesBranch d n (cs.flatMap (quotedChar d)) ⟨cs.map fun c => ⟨.literal c.toNat, .once⟩⟩ := by
  induction cs with
  | nil => exact .empty
  | cons c cs ih => exact .piece (derivesPiece_quotedChar c) ih

private theorem parse_quoted (s : Settings) (text : String) :
    parse s (quoted s.dialect text) = .ok (.ofWord (codepoints text)) := by
  rw [parse_eq_ok, quoted, String.toList_ofList, Regex.ofWord, codepoints, List.map_map]
  exact .branch (derivesBranch_quoted text.toList)

private theorem piecesLanguage_ofWord :
    piecesLanguage (w.map fun c => ⟨.literal c, .once⟩) = ({w} : Set (List Nat)) := by
  induction w with
  | nil => rfl
  | cons c w ih =>
    rw [List.map_cons, piecesLanguage, piece_once_language, ih]
    apply Set.ext
    intro u
    constructor
    · intro inside
      obtain ⟨first, letter, rest, word, same⟩ := Language.mem_mul.mp inside
      cases letter
      cases word
      exact same.symm
    · intro same
      cases same
      exact Language.mem_mul.mpr ⟨[c], rfl, w, rfl, rfl⟩

private theorem mem_ofWord_language {u : List Nat} : u ∈ (Regex.ofWord w).language ↔ u = w := by
  rw [Regex.ofWord, Regex.language, branchesLanguage, branchesLanguage, add_zero, Branch.language,
    piecesLanguage_ofWord]
  exact Iff.rfl

private theorem ofWord_ordered : (Regex.ofWord w).Ordered := by
  refine ⟨?_, trivial⟩
  change PiecesEvery _ (w.map _)
  induction w with
  | nil => trivial
  | cons c w ih => exact ⟨⟨Quantifier.once_ordered, trivial⟩, ih⟩

private theorem ofWord_markFree (plain : Unmarked w) : (Regex.ofWord w).MarkFree := by
  refine ⟨?_, trivial⟩
  change PiecesEvery _ (w.map _)
  induction w with
  | nil => trivial
  | cons c w ih =>
    obtain ⟨first, others⟩ := List.forall_mem_cons.mp plain
    refine ⟨⟨fun e same => ?_, trivial⟩, ih others⟩
    cases same
    exact first

private theorem piecesCodeSize_ofWord (plain : Unmarked w) (previous : Option Piece) :
    piecesCodeSize previous (w.map fun c => ⟨.literal c, .once⟩) = w.length := by
  induction w generalizing previous with
  | nil => rfl
  | cons c w ih =>
    obtain ⟨first, others⟩ := List.forall_mem_cons.mp plain
    have noAnchor : ¬ (Piece.mk (.literal c) .once).RepeatsAnchor previous := by
      simp [Piece.RepeatsAnchor, Piece.anchor?, first]
    have one : (Piece.mk (.literal c) .once).codeSize = 1 := rfl
    rw [List.map_cons, piecesCodeSize, if_neg noAnchor, one, ih others, List.length_cons, Nat.add_comm]

def Dialect.frameSize : Dialect → Nat
  | .xsd => 3
  | .xpath => 9

private theorem ofWord_programSize (plain : Unmarked w) (d : Dialect) :
    (Regex.ofWord w).programSize d = w.length + d.frameSize := by
  have size : (Regex.ofWord w).codeSize = 1 + (1 + w.length) := by
    rw [Regex.ofWord, Regex.codeSize, branchesCodeSize, branchesCodeSize, Branch.codeSize,
      piecesCodeSize_ofWord plain, Nat.add_zero]
  cases d <;> simp only [Regex.programSize, size, Dialect.frameSize] <;> omega

private theorem codepoints_injective {text other : String} (same : codepoints text = codepoints other) :
    text = other := by
  have chars := (List.map_injective_iff.mpr fun _ _ => Char.toNat_inj.mp) same
  rw [← text.ofList_toList, chars, other.ofList_toList]

private theorem infix_codepoints_iff {text subject : String} :
    codepoints text <:+: codepoints subject ↔ text.toList <:+: subject.toList := by
  constructor
  · intro part
    obtain ⟨before, after, same⟩ := part
    obtain ⟨front, u, split, cut, _⟩ := List.map_eq_append_iff.mp same.symm
    obtain ⟨v, middle, more, _, word⟩ := List.map_eq_append_iff.mp cut
    have chars := (List.map_injective_iff.mpr fun _ _ => Char.toNat_inj.mp) word
    exact ⟨v, u, by rw [split, more, chars]⟩
  · intro part
    exact part.map Char.toNat

/-- Of a word the schema program takes the word, and the XPath program what has it inside. -/
theorem matchesText_ofWord_iff {pattern text : String} {limit : Nat} {p : Program}
    (fits : (Regex.ofWord (codepoints text)).compile d limit = .ok p) (subject : String) :
    (Matcher.mk pattern d p).matchesText subject = true ↔ d.Finds text subject := by
  have free := ofWord_markFree (unmarked_codepoints text)
  cases d with
  | xsd =>
    change ((Machine.ofSize p.size).accepts p (codepoints subject)).1 = true ↔ subject = text
    rw [accepts_schema_iff ofWord_ordered fits, Regex.merged_eq _ free, mem_ofWord_language]
    exact ⟨codepoints_injective, congrArg codepoints⟩
  | xpath =>
    change (Matcher.mk pattern .xpath p).matchesCodepoints (codepoints subject) = true ↔
      text.toList <:+: subject.toList
    rw [matches_iff_part free ofWord_ordered fits, ← infix_codepoints_iff]
    simp only [mem_ofWord_language, exists_eq_right]

/-- The pattern of a quoted text is compiled if its program is within the limit, and it matches the text
and nothing else. -/
theorem quoted_matches_itself (d : Dialect) (text : String) (limit : Nat) :
    match Matcher.compile (quoted d text) d limit with
    | .ok m => ∀ subject : String, m.matchesText subject = true ↔ d.Finds text subject
    | .error _ => limit < text.length + d.frameSize := by
  have parsed : parse { dialect := d } (quoted d text) = .ok (.ofWord (codepoints text)) :=
    parse_quoted { dialect := d } text
  unfold Matcher.compile
  simp only [parsed]
  cases compiled : (Regex.ofWord (codepoints text)).compile d limit with
  | ok p => exact matchesText_ofWord_iff compiled
  | error e =>
    by_contra fits
    have size : ((Regex.ofWord (codepoints text)).layout d 0).length = text.length + d.frameSize := by
      rw [layout_sized, ofWord_programSize (unmarked_codepoints text), codepoints, List.length_map,
        String.length_toList]
    rw [compile_of_fits _ d (size ▸ Nat.le_of_not_lt fits)] at compiled
    cases compiled

end SchemaRegex

import SchemaRegex.Proofs.Unicode.BlockLines
import SchemaRegex.Proofs.Unicode.RunSets

/-!
# Block data in a table of lengths

A table of names and lengths says where each block is only by the sum of the lengths before it. Packed
from block data and unpacked again it gives every name of a block the codepoints of all the blocks with
that name, an older name being one of its own (`block_data_round_trip`).
-/

namespace SchemaRegex.Unicode

def BlockLine.HasName (b : BlockLine) (name : String) : Prop :=
  name = b.name ∨ (b.name, name) ∈ blockAliases

private theorem lookup_blockAliases {name other : String} :
    blockAliases.lookup name = some other ↔ (name, other) ∈ blockAliases := by
  rw [List.lookup_eq_some_iff]
  constructor
  · intro given
    obtain ⟨front, rest, same, _⟩ := given
    rw [same]
    simp
  · intro member
    obtain ⟨front, rest, same⟩ := List.append_of_mem member
    refine ⟨front, rest, same, fun entry inside => ?_⟩
    have distinct : (blockAliases.map Prod.fst).Nodup := by decide
    rw [same, List.map_append, List.nodup_append] at distinct
    have apart := distinct.2.2 entry.1 (List.mem_map_of_mem inside) name (by simp)
    simpa using apart.symm

private theorem namesOf_append {name : String} (noBar : '|' ∉ name.toList) (other : String) :
    namesOf (name ++ "|" ++ other) = name :: namesOf other := by
  have text : (name ++ "|" ++ other).toList = name.toList ++ '|' :: other.toList := by simp
  rw [namesOf, text, Text.splitAll_append noBar, List.map_cons, String.ofList_toList]
  rfl

private theorem namesOf_of_noBar {name : String} (noBar : '|' ∉ name.toList) : namesOf name = [name] := by
  rw [namesOf, Text.splitAll_of_not_mem noBar, List.map_singleton, String.ofList_toList]

private theorem mem_namesOf_packedName {b : BlockLine} (noBar : '|' ∉ b.name.toList) {name : String} :
    name ∈ namesOf (packedName b.name) ↔ b.HasName name := by
  unfold packedName BlockLine.HasName
  cases found : blockAliases.lookup b.name with
  | none =>
    have none : (b.name, name) ∉ blockAliases := by
      intro member
      cases found.symm.trans (lookup_blockAliases.mpr member)
    simp [namesOf_of_noBar noBar, none]
  | some other =>
    have noBars : ∀ entry ∈ blockAliases, '|' ∉ entry.2.toList := by decide
    have member := lookup_blockAliases.mp found
    have only : (b.name, name) ∈ blockAliases ↔ name = other := by
      rw [← lookup_blockAliases, found, Option.some.injEq, eq_comm]
    simp [namesOf_append noBar, namesOf_of_noBar (noBars _ member), only]

namespace NamedSets

def Distinct (t : NamedSets) : Prop := (t.entries.map Prod.fst).Nodup

private theorem map_fst_alter (change : Option CodepointSet → CodepointSet) (name : String)
    (entries : List (String × CodepointSet)) :
    (alter change name entries).map Prod.fst =
      if name ∈ entries.map Prod.fst then entries.map Prod.fst
      else entries.map Prod.fst ++ [name] := by
  induction entries with
  | nil => simp [alter]
  | cons entry entries ih =>
    by_cases same : entry.1 = name
    · simp [alter, same]
    · simp only [alter, if_neg same, List.map_cons, ih, List.mem_cons, Ne.symm same, false_or]
      split <;> rfl

private theorem Distinct.extend {t : NamedSets} (distinct : t.Distinct) (name : String) (set : CodepointSet) :
    (t.extend name set).Distinct := by
  rw [Distinct, NamedSets.extend, map_fst_alter]
  split
  · exact distinct
  · rename_i absent
    refine List.nodup_append.mpr ⟨distinct, List.pairwise_singleton _ _, fun a member b last same => ?_⟩
    rw [List.mem_singleton] at last
    exact absent (last ▸ same ▸ member)

variable {t : NamedSets} {name : String} {set : CodepointSet}

private theorem distinct_foldl_extend (names : List String) (distinct : t.Distinct) :
    (names.foldl (·.extend · set) t).Distinct := by
  induction names generalizing t with
  | nil => exact distinct
  | cons other names ih => exact ih (distinct.extend other set)

private theorem has_foldl_extend {names : List String} :
    (names.foldl (·.extend · set) t).Has name ↔ t.Has name ∨ name ∈ names := by
  induction names generalizing t with
  | nil => simp
  | cons other names ih =>
    rw [List.foldl_cons, ih, has_extend, List.mem_cons, or_comm (a := name = other), or_assoc]

private theorem holds_foldl_extend {names : List String} {c : Nat} :
    (names.foldl (·.extend · set) t).Holds name c ↔ t.Holds name c ∨ name ∈ names ∧ c ∈ set := by
  induction names generalizing t with
  | nil => simp
  | cons other names ih =>
    rw [List.foldl_cons, ih, holds_extend, List.mem_cons, or_and_right, or_assoc]

end NamedSets

section

variable {t : NamedSets} {next : Nat} {bs : List BlockLine} {name : String}

/-- A gap moves the place of the next block; a block is added at its place. -/
theorem addBlocks_packBlocks_cons {b : BlockLine} (low : next ≤ b.first) (ordered : b.first ≤ b.last) :
    addBlocks t next (packBlocks next (b :: bs)) =
      addBlocks ((namesOf (packedName b.name)).foldl (·.extend · (.ofRanges [⟨b.first, b.last⟩])) t)
        (b.last + 1) (packBlocks (b.last + 1) bs) := by
  have nonempty : b.last - b.first + 1 ≠ 0 := Nat.succ_ne_zero _
  have behind : b.first + (b.last - b.first + 1) = b.last + 1 := by omega
  by_cases start : b.first = next
  · subst start
    simp only [packBlocks, if_true, List.nil_append, addBlocks, if_neg nonempty, behind,
      Nat.add_sub_cancel]
  · have place : next + (b.first - next) = b.first := by omega
    simp only [packBlocks, if_neg start, List.singleton_append, addBlocks, place, if_neg nonempty, behind,
      Nat.add_sub_cancel]

private theorem distinct_addBlocks (follow : Follow next bs) (distinct : t.Distinct) :
    (addBlocks t next (packBlocks next bs)).Distinct := by
  induction bs generalizing t next with
  | nil => exact distinct
  | cons b bs ih =>
    obtain ⟨low, ordered, follow⟩ := follow
    rw [addBlocks_packBlocks_cons low ordered]
    exact ih follow (NamedSets.distinct_foldl_extend _ distinct)

private theorem has_addBlocks (follow : Follow next bs) (noBars : ∀ b ∈ bs, '|' ∉ b.name.toList) :
    (addBlocks t next (packBlocks next bs)).Has name ↔ t.Has name ∨ ∃ b ∈ bs, b.HasName name := by
  induction bs generalizing t next with
  | nil => simp [packBlocks, addBlocks]
  | cons b bs ih =>
    obtain ⟨low, ordered, follow⟩ := follow
    obtain ⟨noBar, noBars⟩ := List.forall_mem_cons.mp noBars
    rw [addBlocks_packBlocks_cons low ordered, ih follow noBars, NamedSets.has_foldl_extend,
      mem_namesOf_packedName noBar]
    simp [or_assoc]

private theorem holds_addBlocks (follow : Follow next bs) (noBars : ∀ b ∈ bs, '|' ∉ b.name.toList) {c : Nat}
    (inside : c ≤ lastCodepoint) :
    (addBlocks t next (packBlocks next bs)).Holds name c ↔
      t.Holds name c ∨ ∃ b ∈ bs, (b.first ≤ c ∧ c ≤ b.last) ∧ b.HasName name := by
  induction bs generalizing t next with
  | nil => simp [packBlocks, addBlocks]
  | cons b bs ih =>
    obtain ⟨low, ordered, follow⟩ := follow
    obtain ⟨noBar, noBars⟩ := List.forall_mem_cons.mp noBars
    have member : c ∈ CodepointSet.ofRanges [⟨b.first, b.last⟩] ↔ b.first ≤ c ∧ c ≤ b.last := by
      simp [CodepointSet.mem_ofRanges, inside]
    rw [addBlocks_packBlocks_cons low ordered, ih follow noBars, NamedSets.holds_foldl_extend,
      mem_namesOf_packedName noBar, member]
    simp [or_assoc, and_comm]

end

/-- A table has the names of the listed blocks, each once, and under a name the codepoints of all the
blocks that have it. -/
structure NamedSets.Locates (table : NamedSets) (lines : List (List Char)) : Prop where
  distinct : table.Distinct
  names : ∀ name, table.Has name ↔ ∃ b, Listed lines b ∧ b.HasName name
  members : ∀ name set, table.get? name = some set → ∀ c, set.contains c = true ↔
    ∃ b, Listed lines b ∧ (b.first ≤ c ∧ c ≤ b.last) ∧ b.HasName name

private theorem locates_decodeBlocks {lines : List (List Char)} {bs : List BlockLine}
    (written : List.Forall₂ BlockLine.Written bs lines) (follow : Follow 0 bs)
    (inCodespace : ∀ b ∈ bs, b.last ≤ lastCodepoint) (noBars : ∀ b ∈ bs, '|' ∉ b.name.toList) :
    (addBlocks .empty 0 (packBlocks 0 bs)).Locates lines := by
  refine ⟨distinct_addBlocks follow .nil, fun name => ?_, fun name set found c => ?_⟩
  · have none : ¬ NamedSets.empty.Has name := Bool.noConfusion
    simp only [has_addBlocks follow noBars, none, false_or, listed_iff_mem written]
  · have holds : set.contains c = true ↔ (addBlocks .empty 0 (packBlocks 0 bs)).Holds name c := by
      rw [NamedSets.Holds, found, CodepointSet.contains_iff_mem]
      simp
    rw [holds]
    by_cases inside : c ≤ lastCodepoint
    · simp only [holds_addBlocks follow noBars inside, not_holds_empty, false_or, listed_iff_mem written]
    · constructor
      · intro given
        obtain ⟨_, _, member⟩ := given
        exact absurd (CodepointSet.le_lastCodepoint_of_mem member) inside
      · intro given
        obtain ⟨b, listed, ⟨_, high⟩, _⟩ := given
        have last := inCodespace b ((listed_iff_mem written).mp listed)
        omega

/-- Block data of the codespace are packed unless they are faulty, and refused because of one of their
lines if they are. The table they are packed in has a length of at least one for each name or gap, and
unpacked it gives back what the lines say. -/
theorem block_data_round_trip {data : List Char} (inCodespace : ∀ b, Listed (blockLines data) b →
      b.first ≤ lastCodepoint ∧ b.last ≤ lastCodepoint) :
    (∀ packed, encodeBlocks data = .ok packed →
      (∀ b, Listed (blockLines data) b → '|' ∉ b.name.toList) →
        packed.names.length = packed.lengths.length ∧ (∀ length ∈ packed.lengths, 1 ≤ length) ∧
          (decodeBlocks packed).Locates (blockLines data)) ∧
    ((∃ packed, encodeBlocks data = .ok packed) ↔ ¬ Faulty (blockLines data)) ∧
    ((∃ line ∈ blockLines data, encodeBlocks data = .error (.malformedLine (String.ofList line))) ↔
      Faulty (blockLines data)) := by
  rw [encodeBlocks_eq]
  have notEarly : ¬ StartsBefore 0 (blockLines data) := fun given => by
    obtain ⟨_, _, _, _, early⟩ := given
    cases early
  have refused := encodeBlockLines_eq_error 0 inCodespace
  rw [or_iff_right notEarly] at refused
  have cases := encodeBlockLines_cases 0 (blockLines data)
  refine ⟨fun packed accepted noBars => ?_, ?_, ?_⟩
  · obtain ⟨bs, written, follow, same⟩ := encodeBlockLines_eq_ok accepted
    rw [same]
    refine ⟨by simp, fun length member => ?_, ?_⟩
    · obtain ⟨entry, inside, rfl⟩ := List.mem_map.mp member
      exact one_le_of_mem_packBlocks follow inside
    · have entries : ((packBlocks 0 bs).map Prod.fst).zip ((packBlocks 0 bs).map Prod.snd) =
          packBlocks 0 bs := (List.zip_of_prod rfl rfl).symm
      rw [decodeBlocks, entries]
      exact locates_decodeBlocks written follow
        (fun b member => (inCodespace b ((listed_iff_mem written).mpr member)).2)
        fun b member => noBars b ((listed_iff_mem written).mpr member)
  · rw [← refused]
    constructor
    · intro given other
      obtain ⟨packed, accepted⟩ := given
      obtain ⟨text, fails⟩ := other
      cases accepted.symm.trans fails
    · intro never
      exact cases.resolve_right fun ⟨line, _, fails⟩ => never ⟨_, fails⟩
  · rw [← refused]
    constructor
    · intro given
      obtain ⟨line, _, fails⟩ := given
      exact ⟨_, fails⟩
    · intro given
      obtain ⟨text, fails⟩ := given
      refine cases.resolve_left fun ⟨packed, accepted⟩ => ?_
      cases accepted.symm.trans fails

def privateUseData : List Char :=
  "# Blocks\r\n\n0000..007f; Basic Latin\r\n E000..F8FF ;Private Use Area\n".toList ++
    "F0000..+FFFFF; Supplementary Private Use Area-A".toList

theorem blockLines_privateUseData : blockLines privateUseData =
    ["0000..007f; Basic Latin".toList, "E000..F8FF ;Private Use Area".toList,
      "F0000..+FFFFF; Supplementary Private Use Area-A".toList] := by
  decide +kernel

def privateUseBlocks : List BlockLine :=
  [⟨0, 0x7F, "BasicLatin"⟩, ⟨0xE000, 0xF8FF, "PrivateUseArea"⟩,
    ⟨0xF0000, 0xFFFFF, "SupplementaryPrivateUseArea-A"⟩]

theorem written_privateUseBlocks :
    List.Forall₂ BlockLine.Written privateUseBlocks (blockLines privateUseData) := by
  rw [blockLines_privateUseData]
  refine .cons (BlockLine.written_of_read? ?_) <| .cons (BlockLine.written_of_read? ?_) <|
    .cons (BlockLine.written_of_read? ?_) .nil
  all_goals decide +kernel

def privateUseTable : BlockTable where
  names := [some "BasicLatin", none, some "PrivateUseArea|PrivateUse", none,
    some "SupplementaryPrivateUseArea-A|PrivateUse"]
  lengths := [128, 57216, 6400, 919296, 65536]

theorem private_use_round_trip :
    (∀ b, Listed (blockLines privateUseData) b → b.first ≤ lastCodepoint ∧ b.last ≤ lastCodepoint) ∧
      (∀ b, Listed (blockLines privateUseData) b → '|' ∉ b.name.toList) ∧
      encodeBlocks privateUseData = .ok privateUseTable ∧
      privateUseTable.names.length = privateUseTable.lengths.length ∧
      (∀ length ∈ privateUseTable.lengths, 1 ≤ length) ∧
      (decodeBlocks privateUseTable).Locates (blockLines privateUseData) ∧
      ¬ Faulty (blockLines privateUseData) := by
  have listed {P : BlockLine → Prop} (all : ∀ b ∈ privateUseBlocks, P b) :
      ∀ b, Listed (blockLines privateUseData) b → P b :=
    fun b given => all b ((listed_iff_mem written_privateUseBlocks).mp given)
  have inCodespace := listed (P := fun b => b.first ≤ lastCodepoint ∧ b.last ≤ lastCodepoint) (by decide)
  have noBars := listed (P := fun b => '|' ∉ b.name.toList) (by decide)
  have accepted : encodeBlocks privateUseData = .ok privateUseTable := by
    rw [encodeBlocks_eq, blockLines_privateUseData]
    decide +kernel
  obtain ⟨packs, fit, _⟩ := block_data_round_trip inCodespace
  obtain ⟨sizes, positive, located⟩ := packs privateUseTable accepted noBars
  exact ⟨inCodespace, noBars, accepted, sizes, positive, located, fit.mp ⟨_, accepted⟩⟩

end SchemaRegex.Unicode

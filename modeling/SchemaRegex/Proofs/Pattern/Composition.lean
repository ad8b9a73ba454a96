import SchemaRegex.Proofs.Pattern.CommonPatterns

/-!
# Patterns made of patterns

A derivation of a pattern does not depend on what stands around it. So the texts of two patterns with a
bar between them, side by side, or in parentheses have the tree that is made of theirs in the same way
(`parse_composed`), as long as the limit for brackets allows.
-/

namespace SchemaRegex.Pattern

variable {d : Dialect} {n m : Nat} {u w : List Char}

private theorem DerivesBranch.append {b c : Branch} (first : DerivesBranch d n u b)
    (second : DerivesBranch d n w c) : DerivesBranch d n (u ++ w) ⟨b.pieces ++ c.pieces⟩ := by
  obtain ⟨ps⟩ := b
  obtain ⟨qs⟩ := c
  induction ps generalizing u with
  | nil =>
    cases first
    exact second
  | cons p ps ih =>
    cases first with
    | piece piece others =>
      rw [List.append_assoc]
      exact .piece piece (ih others)

private theorem DerivesRegex.exists_last {r : Regex} (regex : DerivesRegex d n u r) :
    ∃ bs b, r.branches = bs ++ [b] := by
  have nonempty : r.branches ≠ [] := by
    cases regex <;> exact List.cons_ne_nil _ _
  exact ⟨r.branches.dropLast, r.branches.getLast nonempty, (List.dropLast_append_getLast nonempty).symm⟩

private theorem DerivesRegex.exists_first {r : Regex} (regex : DerivesRegex d n u r) :
    ∃ c cs, r.branches = c :: cs := by
  cases regex with
  | branch => exact ⟨_, [], rfl⟩
  | alternative => exact ⟨_, _, rfl⟩

private theorem DerivesRegex.or {r q : Regex} (first : DerivesRegex d n u r) (second : DerivesRegex d n w q) :
    DerivesRegex d n (u ++ '|' :: w) ⟨r.branches ++ q.branches⟩ := by
  obtain ⟨bs⟩ := r
  obtain ⟨cs⟩ := q
  induction bs generalizing u with
  | nil => cases first
  | cons b bs ih =>
    cases first with
    | branch only => exact .alternative only second
    | alternative branch others =>
      rw [List.append_assoc]
      exact .alternative branch (ih others)

/-- Side by side, the last branch of the first and the first branch of the second become one. -/
theorem DerivesRegex.append {bs cs : List Branch} {b c : Branch}
    (first : DerivesRegex d n u ⟨bs ++ [b]⟩) (second : DerivesRegex d n w ⟨c :: cs⟩) :
    DerivesRegex d n (u ++ w) ⟨bs ++ ⟨b.pieces ++ c.pieces⟩ :: cs⟩ := by
  induction bs generalizing u with
  | nil =>
    cases first with
    | branch only =>
      cases second with
      | branch other => exact .branch (only.append other)
      | alternative other others =>
        rw [← List.append_assoc]
        exact .alternative (only.append other) others
    | alternative _ none => cases none
  | cons a bs ih =>
    rw [List.cons_append] at first
    -- Cases are told apart by the branches behind the first one, so these become a variable.
    generalize more : bs ++ [b] = rest at first
    cases first with
    | branch => simp at more
    | alternative branch others =>
      rw [List.append_assoc]
      exact .alternative branch (ih (more ▸ others))

private theorem DerivesRegex.grouped {r : Regex} (inside : DerivesRegex d n w r) :
    DerivesRegex d (n + 1) ('(' :: w ++ [')']) ⟨[⟨[⟨.group r, .once⟩]⟩]⟩ := by
  have branch : DerivesBranch d (n + 1) ('(' :: w ++ [')'] ++ []) ⟨[⟨.group r, .once⟩]⟩ :=
    .piece (.once (.group inside)) .empty
  rw [List.append_nil] at branch
  exact .branch branch

private theorem DerivesRegex.mono {r : Regex} (less : n ≤ m) (regex : DerivesRegex d n w r) :
    DerivesRegex d m w r := by
  obtain ⟨e, derives⟩ := derives_iff_tree.mp regex
  exact derives_iff_tree.mpr ⟨e, { derives with depth := Nat.le_trans derives.depth less }⟩

/-- What is read from `p` and `q` together, if `t` is read from `p` with the limit `n` and `u` from `q` with
the limit `m`. -/
structure Composes (d : Dialect) (n m : Nat) (p q : String) (t u : Regex) : Prop where
  bar : ∀ k, max n m ≤ k → parse (limited d k) (p ++ "|" ++ q) = .ok ⟨t.branches ++ u.branches⟩
  group : ∀ k, n ≤ k → parse (limited d k) ("(" ++ p ++ ")") = .ok ⟨[⟨[⟨.group t, .once⟩]⟩]⟩ ∨
    k = n ∧ ∃ e, parse (limited d k) ("(" ++ p ++ ")") = .error e ∧ e.cause = .violation (.nestingTooDeep k)
  append : ∃ bs b c cs, t.branches = bs ++ [b] ∧ u.branches = c :: cs ∧ ∀ k, max n m ≤ k →
    parse (limited d k) (p ++ q) = .ok ⟨bs ++ ⟨b.pieces ++ c.pieces⟩ :: cs⟩

private theorem parse_limited_eq_ok {text : String} {r : Regex} :
    parse (limited d n) text = .ok r ↔ DerivesRegex d n text.toList r := parse_eq_ok

private theorem parse_group {p : String} {t : Regex} (parsed : parse (limited d n) p = .ok t) {k : Nat}
    (less : n < k) : parse (limited d k) ("(" ++ p ++ ")") = .ok ⟨[⟨[⟨.group t, .once⟩]⟩]⟩ := by
  have derives := (parse_limited_eq_ok.mp parsed).grouped.mono less
  refine parse_limited_eq_ok.mpr ?_
  simpa using derives

/-- Parsing is compositional. -/
theorem parse_composed {p q : String} {t u : Regex} (first : parse (limited d n) p = .ok t)
    (second : parse (limited d m) q = .ok u) : Composes d n m p q t u := by
  have left := parse_limited_eq_ok.mp first
  have right := parse_limited_eq_ok.mp second
  refine ⟨fun k less => ?_, fun k less => ?_, ?_⟩
  · obtain ⟨lessLeft, lessRight⟩ := Nat.max_le.mp less
    refine parse_limited_eq_ok.mpr ?_
    simpa using (left.mono lessLeft).or (right.mono lessRight)
  · obtain same | less := Nat.eq_or_lt_of_le less
    · -- One limit higher the group is read, and a lower limit only refuses.
      obtain agree | tooDeep := parse_limited (d := d) (Nat.le_add_right k 1) ("(" ++ p ++ ")")
      · exact .inl (agree.trans (parse_group first (by omega)))
      · exact .inr ⟨same.symm, tooDeep⟩
    · exact .inl (parse_group first less)
  · obtain ⟨bs, b, last⟩ := left.exists_last
    obtain ⟨c, cs, start⟩ := right.exists_first
    refine ⟨bs, b, c, cs, last, start, fun k less => ?_⟩
    obtain ⟨lessLeft, lessRight⟩ := Nat.max_le.mp less
    obtain ⟨ts⟩ := t
    obtain ⟨us⟩ := u
    subst last start
    refine parse_limited_eq_ok.mpr ?_
    simpa using (left.mono lessLeft).append (right.mono lessRight)

/-- `x|` has two branches, the second without pieces. -/
theorem parse_optionalX : parse (limited .xpath 1) "x|" =
    .ok ⟨[⟨[⟨.literal 'x'.toNat, .once⟩]⟩, ⟨[]⟩]⟩ := by
  have plain : 'x' ∉ Dialect.xpath.metacharacters := by simp [metacharacters_xpath]
  have tree : (PatternSyntax.leaf (.character 'x') .absent (.bar .empty)).Derives .xpath 1 "x|".toList
      ⟨[⟨[⟨.literal 'x'.toNat, .once⟩]⟩, ⟨[]⟩]⟩ :=
    ⟨⟨plain, trivial, trivial⟩, by decide, by decide +kernel, rfl⟩
  exact parse_eq_ok_iff_tree.mpr ⟨_, tree⟩

/-- `(a|[b-d])*` and `x|` together: `(a|[b-d])*x|` -/
theorem parse_composed_starredGroup :
    ∃ t, parse (limited .xpath 2) "(a|[b-d])*" = .ok t ∧
      parse (limited .xpath 1) "x|" = .ok ⟨[⟨[⟨.literal 'x'.toNat, .once⟩]⟩, ⟨[]⟩]⟩ ∧
      Composes .xpath 2 1 "(a|[b-d])*" "x|" t ⟨[⟨[⟨.literal 'x'.toNat, .once⟩]⟩, ⟨[]⟩]⟩ := by
  have starred : parse (limited .xpath 2) "(a|[b-d])*" = .ok starredGroup.regex :=
    parse_eq_ok_iff_tree.mpr ⟨starredGroup, starredGroup_derives .xpath⟩
  exact ⟨_, starred, parse_optionalX, parse_composed starred parse_optionalX⟩

end SchemaRegex.Pattern

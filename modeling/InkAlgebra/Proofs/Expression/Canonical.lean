import InkAlgebra.Expression.Canonical

/-!
# Canonical forms of composed texts

The canonical form is computed from left to right with a memory: of the character before, and of
where in a run of digits the reading stands. This file says what is left of that memory behind an
operator or a bracket, so that the canonical form of a composed text is composed of those of its
parts.

Nearly nothing is left. The one thing that reaches across is a point: behind a part that ends in
one, leading zeros stay. §1 is products and marks, §2 zeros, §3 the two together, §4 the characters
that a canonical form can hold.
-/

namespace InkAlgebra

/-! ## §1  Products and marks -/

theorem needsProduct_eq_false_right {b : Char} (hoperand : isOperandChar b = false)
    (hopening : isOpeningChar b = false) (prev : Char) : needsProduct prev b = false := by
  have hletter : isLetter b = false := (Bool.or_eq_false_iff.1 hoperand).2
  simp [needsProduct, hoperand, hopening, hletter]

theorem needsProduct_eq_false_left {b : Char} (hoperand : isOperandChar b = false)
    (hclosing : isClosingChar b = false) (cur : Char) : needsProduct b cur = false := by
  obtain ⟨hdigit, hletter⟩ := Bool.or_eq_false_iff.1 hoperand
  simp [needsProduct, hoperand, hclosing, hdigit, hletter]

/-- No product is written in front of a character that is no operand and opens nothing. -/
theorem writeProducts_append_cons {b : Char} (hoperand : isOperandChar b = false)
    (hopening : isOpeningChar b = false) (prev : Option Char) (front back : List Char) :
    writeProducts prev (front ++ b :: back) =
      writeProducts prev front ++ canonicalMark b :: writeProducts (some b) back := by
  induction front generalizing prev with
  | nil =>
      have hnone : prev.any (needsProduct · b) = false := by
        cases prev with
        | none => rfl
        | some p => exact needsProduct_eq_false_right hoperand hopening p
      show (if prev.any (needsProduct · b) then _ else _) = _
      rw [hnone]
      rfl
  | cons c rest ih =>
      rw [List.cons_append, writeProducts, writeProducts, ih]
      split
      · rfl
      · rfl

/-- No product is written behind a character that is no operand and closes nothing. -/
theorem writeProducts_some {b : Char} (hoperand : isOperandChar b = false)
    (hclosing : isClosingChar b = false) (text : List Char) :
    writeProducts (some b) text = writeProducts none text := by
  cases text with
  | nil => rfl
  | cons c rest =>
      show (if needsProduct b c then _ else _) = _
      rw [needsProduct_eq_false_left hoperand hclosing c]
      rfl

/-- Products and marks on both sides of a mark that no operand touches are those of the sides. -/
theorem writeProducts_mark {o : Char} (hoperand : isOperandChar o = false)
    (hopening : isOpeningChar o = false) (hclosing : isClosingChar o = false)
    (hmark : canonicalMark o = o) (left right : List Char) :
    writeProducts none (left ++ o :: right) =
        writeProducts none left ++ o :: writeProducts none right := by
  rw [writeProducts_append_cons hoperand hopening, writeProducts_some hoperand hclosing, hmark]

/-- Products and marks on both sides of an operator are those of the sides. -/
theorem writeProducts_operator {o : Char} (ho : o = '/' ∨ o = '^') (left right : List Char) :
    writeProducts none (left ++ o :: right) =
      writeProducts none left ++ o :: writeProducts none right := by
  rcases ho with rfl | rfl
  · exact writeProducts_mark (by decide) (by decide) (by decide) rfl left right
  · exact writeProducts_mark (by decide) (by decide) (by decide) rfl left right

theorem writeProducts_bracketed (text : List Char) :
    writeProducts none ('(' :: text ++ [')']) = '(' :: writeProducts none text ++ [')'] := by
  have hopen : ∀ rest, writeProducts none ('(' :: rest) = '(' :: writeProducts none rest := by
    intro rest
    show '(' :: writeProducts (some '(') rest = _
    rw [writeProducts_some (by decide) (by decide)]
  rw [List.cons_append, hopen, writeProducts_append_cons (by decide) (by decide)]
  rfl

/-! ## §2  Leading zeros -/

/-- The states that are possible behind a mark: nothing is read any more, or zeros are kept because
there was a point in front of the mark. -/
def ZeroState.PastMark (s : ZeroState) : Prop := s = .outside ∨ s = .kept

theorem ZeroState.after_eq_outside {b : Char} (hdigit : b.isDigit = false) (hpoint : b ≠ '.') :
    ZeroState.after b = .outside := by
  simp [ZeroState.after, hdigit, hpoint]

/-- A mark is written as it is, and nothing is kept across two of them. -/
theorem stripZerosFrom_cons {b : Char} (hdigit : b.isDigit = false) (hpoint : b ≠ '.')
    {s : ZeroState} (hs : s.PastMark) (back : List Char) :
    stripZerosFrom s (b :: back) = b :: stripZerosFrom .outside back := by
  have hzero : b ≠ '0' := by
    rintro rfl
    exact absurd hdigit (by decide)
  rcases hs with rfl | rfl
  · show (if b = '0' then _ else _) = _
    rw [if_neg hzero, ZeroState.after_eq_outside hdigit hpoint]
  · show b :: stripZerosFrom (.after b) back = _
    rw [ZeroState.after_eq_outside hdigit hpoint]

/-- A mark splits the reading: what stands in front of it is read as if nothing followed. -/
theorem stripZerosFrom_append_cons {b : Char} (hdigit : b.isDigit = false) (hpoint : b ≠ '.')
    (s : ZeroState) (front : List Char) :
    ∃ s' : ZeroState, s'.PastMark ∧ ∀ back,
      stripZerosFrom s (front ++ b :: back) =
          stripZerosFrom s front ++ b :: stripZerosFrom s' back := by
  induction front generalizing s with
  | nil =>
      have hzero : b ≠ '0' := by
        rintro rfl
        exact absurd hdigit (by decide)
      cases s with
      | outside => exact ⟨.outside, .inl rfl, stripZerosFrom_cons hdigit hpoint (.inl rfl)⟩
      | kept => exact ⟨.outside, .inl rfl, stripZerosFrom_cons hdigit hpoint (.inr rfl)⟩
      | leading =>
          refine ⟨.outside, .inl rfl, fun back => ?_⟩
          simp [stripZerosFrom, hzero, hdigit, ZeroState.after_eq_outside hdigit hpoint]
      | behindPoint =>
          -- the mark is itself the one character that a point keeps, with the digits behind it
          refine ⟨.kept, .inr rfl, fun back => ?_⟩
          simp [stripZerosFrom, hpoint]
  | cons c rest ih =>
      cases s with
      | outside =>
          by_cases hc : c = '0'
          · obtain ⟨s', hs', heq⟩ := ih .leading
            exact ⟨s', hs', fun back => by simp [stripZerosFrom, hc, heq]⟩
          · obtain ⟨s', hs', heq⟩ := ih (.after c)
            exact ⟨s', hs', fun back => by simp [stripZerosFrom, hc, heq]⟩
      | kept =>
          obtain ⟨s', hs', heq⟩ := ih (.after c)
          exact ⟨s', hs', fun back => by simp [stripZerosFrom, heq]⟩
      | leading =>
          by_cases hc : c = '0'
          · obtain ⟨s', hs', heq⟩ := ih .leading
            exact ⟨s', hs', fun back => by simp [stripZerosFrom, hc, heq]⟩
          · by_cases hd : c.isDigit = true
            · obtain ⟨s', hs', heq⟩ := ih .kept
              exact ⟨s', hs', fun back => by simp [stripZerosFrom, hc, hd, heq]⟩
            · obtain ⟨s', hs', heq⟩ := ih (.after c)
              exact ⟨s', hs', fun back => by simp [stripZerosFrom, hc, hd, heq]⟩
      | behindPoint =>
          obtain ⟨s', hs', heq⟩ := ih (if c = '.' then .behindPoint else .kept)
          exact ⟨s', hs', fun back => by simp [stripZerosFrom, heq]⟩

/-- Brackets are read by themselves. -/
theorem stripZerosFrom_bracketed {s : ZeroState} (hs : s.PastMark) (text : List Char) :
    stripZerosFrom s ('(' :: text ++ [')']) = '(' :: stripLeadingZeros text ++ [')'] := by
  obtain ⟨s', hs', hclose⟩ :=
    stripZerosFrom_append_cons (b := ')') (by decide) (by decide) .outside text
  rw [List.cons_append, stripZerosFrom_cons (by decide) (by decide) hs, hclose]
  rcases hs' with rfl | rfl <;> rfl

/-- Behind one zero that is kept, keeping all zeros is dropping some of them less. -/
theorem exists_zeros_kept_leading (text : List Char) :
    ∃ m, '0' :: stripZerosFrom .kept text = List.replicate m '0' ++ stripZerosFrom .leading text ∧
      (stripZerosFrom .leading text).head?.any Char.isDigit = true := by
  induction text with
  | nil => exact ⟨0, rfl, rfl⟩
  | cons c rest ih =>
      by_cases hc : c = '0'
      · subst hc
        obtain ⟨m, hm, hhead⟩ := ih
        refine ⟨m + 1, ?_, hhead⟩
        show '0' :: '0' :: stripZerosFrom .kept rest = _
        rw [hm]
        rfl
      · by_cases hd : c.isDigit = true
        · exact ⟨1, by simp [stripZerosFrom, ZeroState.after, hc, hd],
            by simp [stripZerosFrom, hc, hd]⟩
        · exact ⟨0, by simp [stripZerosFrom, hc, hd], by simp [stripZerosFrom, hc, hd]⟩

/-- Keeping zeros puts zeros in front of a text, and only if that starts with a digit. -/
theorem exists_zeros_of_pastMark {s : ZeroState} (hs : s.PastMark) (text : List Char) :
    ∃ m, stripZerosFrom s text = List.replicate m '0' ++ stripLeadingZeros text ∧
      (m = 0 ∨ (stripLeadingZeros text).head?.any Char.isDigit = true) := by
  rcases hs with rfl | rfl
  · exact ⟨0, rfl, .inl rfl⟩
  · cases text with
    | nil => exact ⟨0, rfl, .inl rfl⟩
    | cons c rest =>
        by_cases hc : c = '0'
        · subst hc
          obtain ⟨m, hm, hhead⟩ := exists_zeros_kept_leading rest
          exact ⟨m, hm, .inr hhead⟩
        · refine ⟨0, ?_, .inl rfl⟩
          show c :: stripZerosFrom (.after c) rest = (if c = '0' then _ else _)
          rw [if_neg hc]

/-! ## §3  Canonical forms -/

theorem canonicalForm_bracketed (text : List Char) :
    canonicalForm ('(' :: text ++ [')']) = '(' :: canonicalForm text ++ [')'] := by
  unfold canonicalForm
  rw [writeProducts_bracketed]
  exact stripZerosFrom_bracketed (.inl rfl) _

/-- On the left of a mark that no operand touches the canonical form is that of the left side, and
on the right that of the right side up to zeros which stay. -/
theorem exists_canonicalForm_mark {o : Char} (hoperand : isOperandChar o = false)
    (hopening : isOpeningChar o = false) (hclosing : isClosingChar o = false)
    (hmark : canonicalMark o = o) (hpoint : o ≠ '.') (left : List Char) :
    ∃ s : ZeroState, s.PastMark ∧ ∀ right,
      canonicalForm (left ++ o :: right) =
        canonicalForm left ++ o :: stripZerosFrom s (writeProducts none right) := by
  have hdigit : o.isDigit = false := (Bool.or_eq_false_iff.1 hoperand).1
  obtain ⟨s, hs, hsplit⟩ :=
    stripZerosFrom_append_cons hdigit hpoint .outside (writeProducts none left)
  refine ⟨s, hs, fun right => ?_⟩
  unfold canonicalForm
  rw [writeProducts_mark hoperand hopening hclosing hmark]
  exact hsplit _

/-- **Operators.** On the left of an operator the canonical form is that of the left side, and on
the right that of the right side up to zeros which stay. -/
theorem exists_canonicalForm_operator {o : Char} (ho : o = '/' ∨ o = '^') (left : List Char) :
    ∃ s : ZeroState, s.PastMark ∧ ∀ right,
      canonicalForm (left ++ o :: right) =
        canonicalForm left ++ o :: stripZerosFrom s (writeProducts none right) := by
  rcases ho with rfl | rfl
  · exact exists_canonicalForm_mark (by decide) (by decide) (by decide) rfl (by decide) left
  · exact exists_canonicalForm_mark (by decide) (by decide) (by decide) rfl (by decide) left

/-- Behind a closing bracket and an operator nothing is left of what was in front. -/
theorem canonicalForm_bracketed_power (text right : List Char) :
    canonicalForm ('(' :: text ++ [')'] ++ '^' :: right) =
      '(' :: canonicalForm text ++ [')'] ++ '^' :: canonicalForm right := by
  unfold canonicalForm stripLeadingZeros
  rw [writeProducts_operator (.inr rfl), writeProducts_bracketed, List.append_assoc,
    List.append_assoc, List.cons_append, List.cons_append,
    stripZerosFrom_cons (by decide) (by decide) (.inl rfl)]
  obtain ⟨s, hs, hclose⟩ := stripZerosFrom_append_cons (b := ')') (by decide) (by decide) .outside
    (writeProducts none text)
  show '(' :: stripZerosFrom .outside (writeProducts none text ++ ')' :: '^' :: _) = _
  rw [hclose, stripZerosFrom_cons (by decide) (by decide) hs]
  rfl

theorem canonicalMark_of_isOperandChar {c : Char} (h : isOperandChar c = true) :
    canonicalMark c = c := by
  revert h
  unfold canonicalMark
  split
  · decide
  · decide
  · decide
  · decide
  · decide
  · decide
  · decide
  · exact fun _ => rfl

/-- A single operand in front of an operator is its own canonical form. -/
theorem canonicalForm_operand_power {c : Char} (h : isOperandChar c = true) (right : List Char) :
    canonicalForm ([c] ++ '^' :: right) = [c] ++ '^' :: canonicalForm right := by
  have hpoint : c ≠ '.' := by
    rintro rfl
    exact absurd h (by decide)
  unfold canonicalForm stripLeadingZeros
  rw [writeProducts_operator (.inr rfl)]
  show stripZerosFrom .outside (canonicalMark c :: '^' :: writeProducts none right) = _
  rw [canonicalMark_of_isOperandChar h]
  by_cases hzero : c = '0'
  · subst hzero
    rfl
  · have hpast : (ZeroState.after c).PastMark := by
      unfold ZeroState.after
      rw [if_neg hpoint]
      by_cases hdigit : c.isDigit = true
      · rw [if_pos hdigit]
        exact .inr rfl
      · rw [if_neg hdigit]
        exact .inl rfl
    show (if c = '0' then _ else _) = _
    rw [if_neg hzero, stripZerosFrom_cons (by decide) (by decide) hpast]
    rfl

/-! ## §4  Characters of a canonical form -/

theorem mem_stripZerosFrom {c : Char} {s : ZeroState} {text : List Char}
    (h : c ∈ stripZerosFrom s text) : c = '0' ∨ c ∈ text := by
  fun_induction stripZerosFrom s text <;> simp_all <;> grind

theorem mem_writeProducts {c : Char} {prev : Option Char} {text : List Char}
    (h : c ∈ writeProducts prev text) : c = '*' ∨ ∃ d ∈ text, canonicalMark d = c := by
  induction text generalizing prev with
  | nil => cases h
  | cons d rest ih =>
      have hmarked : c = '*' ∨ c ∈ canonicalMark d :: writeProducts (some d) rest := by
        unfold writeProducts at h
        dsimp only at h
        split at h
        · exact List.mem_cons.1 h
        · exact .inr h
      rcases hmarked with rfl | hmarked
      · exact .inl rfl
      · rcases List.mem_cons.1 hmarked with rfl | hrest
        · exact .inr ⟨d, List.mem_cons_self, rfl⟩
        · rcases ih hrest with rfl | ⟨e, he, rfl⟩
          · exact .inl rfl
          · exact .inr ⟨e, List.mem_cons_of_mem d he, rfl⟩

/-- Sums, differences and powers are never written into a canonical form. -/
theorem mem_of_mem_canonicalForm {c : Char} (hc : c = '+' ∨ c = '-' ∨ c = '^') {text : List Char}
    (h : c ∈ canonicalForm text) : c ∈ text := by
  rcases mem_stripZerosFrom h with rfl | hmarked
  · exact absurd hc (by decide)
  · rcases mem_writeProducts hmarked with rfl | ⟨d, hd, hmark⟩
    · exact absurd hc (by decide)
    · -- no mark of handwriting turns into one of the three
      have : d = c := by
        subst hmark
        revert hc
        unfold canonicalMark
        split <;> simp_all
      exact this ▸ hd

/-- Only a comma becomes a point. -/
theorem point_not_mem_canonicalForm {raw : List Char} (h : ',' ∉ raw) :
    '.' ∉ canonicalForm raw := by
  intro hpoint
  rcases mem_stripZerosFrom hpoint with heq | hmarked
  · exact absurd heq (by decide)
  · rcases mem_writeProducts hmarked with heq | ⟨d, hd, hmark⟩
    · exact absurd heq (by decide)
    · have hcomma : d = ',' := by
        unfold canonicalMark at hmark
        split at hmark <;> simp_all
      exact h (hcomma ▸ hd)

end InkAlgebra

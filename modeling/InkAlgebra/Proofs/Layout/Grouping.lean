import Mathlib
import InkAlgebra.Proofs.Expression.Canonical
import InkAlgebra.Proofs.Expression.Phrases
import InkAlgebra.Proofs.Layout.PlainRow

/-!
# What is read of fractions and exponents

The layout puts a side of a fraction or a script in brackets if it sees an operator in it. The
operators that it looks for are fewer than those that the canonical form ends up with: products are
written by standing side by side or with a point, and quotients with a colon. This file says which
fractions and exponents are read as they stand on the page all the same, and that no others are.

§1 is single sides, §2 fractions, §3 exponents.
-/

namespace InkAlgebra

/-! ## §1  Sides -/

/-- Whether a text is parsed into a tree, up to the spelling of numbers: what is read has the same
value (`Expr.Alike.valueAt_eq`) and the same structure. -/
def ReadsAlike (text : List Char) (e : Expr) : Prop :=
  ∃ e' : Expr, infixToPostfix text = .ok e'.postorder ∧ e'.Alike e

/-- What a side is put in brackets for and does not hold is not in its canonical form. -/
theorem not_mem_canonicalForm {operators text : List Char}
    (hany : ¬ text.any (· ∈ operators) = true) {c : Char} (hc : c = '+' ∨ c = '-' ∨ c = '^')
    (hlisted : c ∈ operators) :
    c ∉ canonicalForm text := by
  intro hmem
  apply hany
  rw [List.any_eq_true]
  exact ⟨c, mem_of_mem_canonicalForm hc hmem, decide_eq_true hlisted⟩

/-- A side that is put in brackets for its sums is a term in any case. -/
theorem term_of_bracketedIfAny {operators text : List Char} {e : Expr} (hadd : '+' ∈ operators)
    (hsub : '-' ∈ operators) (h : Writes (canonicalForm text) e) :
    WritesAs .term (canonicalForm (bracketedIfAny operators text)) e := by
  unfold bracketedIfAny
  by_cases hany : text.any (· ∈ operators) = true
  · rw [if_pos hany, canonicalForm_bracketed]
    exact (WritesAs.bracketed h).unary_of_atom.term_of_unary
  · rw [if_neg hany]
    apply WritesAs.term_of_not_mem h
    · exact not_mem_canonicalForm hany (.inl rfl) hadd
    · exact not_mem_canonicalForm hany (.inr (.inl rfl)) hsub

/-- Behind an operator a side in brackets is itself, and one without may get zeros in front. -/
theorem exists_canonicalForm_side {o : Char} (ho : o = '/' ∨ o = '^')
    (operators left text : List Char) :
    ∃ m, (m = 0 ∨ (canonicalForm text).head?.any Char.isDigit = true) ∧
      canonicalForm (left ++ o :: bracketedIfAny operators text) =
        canonicalForm left ++ o ::
          if text.any (· ∈ operators) then '(' :: canonicalForm text ++ [')']
          else List.replicate m '0' ++ canonicalForm text := by
  obtain ⟨s, hs, hsplit⟩ := exists_canonicalForm_operator ho left
  obtain ⟨m, hzeros, hhead⟩ := exists_zeros_of_pastMark hs (writeProducts none text)
  refine ⟨m, hhead, ?_⟩
  rw [hsplit]
  unfold bracketedIfAny
  split
  · rw [writeProducts_bracketed, stripZerosFrom_bracketed hs]
    rfl
  · rw [hzeros]
    rfl

/-- Rational coordinates, with a tangent close to that of the one angle that is asked for. -/
local instance : Coordinate ℚ := Exact.coordinate fun _ => 91 / 250

/-- A page with the standard thresholds that knows no glyphs. -/
def bluntPage : Page ℚ where
  geometry :=
    { superscript := 1 / 2, lowered := 3 / 5, smallScriptRise := 1 / 4, scriptAngle := 20,
      descenderTrim := 7 / 10, smallScriptRatio := 7 / 10, inlineOperator :=
        3 / 10, maxDepth := 64 }
  glyphs _ := none

/-- Symbols of size one on a line, side by side. -/
def lineAt (x y : ℚ) (text : List Char) : List (Leaf ℚ) :=
  text.zipIdx.map fun (c, i) => ⟨[c], ⟨x + i, y, 1, 1⟩, ⟨x + i, y, 1, 1⟩⟩

/-! ## §2  Fractions -/

namespace Candidate

variable {κ : Type} [Coordinate κ] {inner : List (Leaf κ) → Except LimitPassed (List Char)}
  {c : Candidate κ} {num den : List Char}

theorem exists_assemble (leaves : List (Leaf κ)) (hnum : inner c.numerator = .ok num)
    (hden : inner c.denominator = .ok den) :
    ∃ f, c.assemble inner leaves = .ok f ∧
      f.text = bracketedIfAny operators num ++ '/' :: bracketedIfAny operators den := by
  unfold assemble
  rw [hnum, hden]
  exact ⟨_, rfl, rfl⟩

/-- A fraction whose denominator is in brackets or an atom is read as it stands. -/
theorem readsAlike_of_atom {a b : Expr} (ha : Writes (canonicalForm num) a)
    (hb : Writes (canonicalForm den) b)
    (hden : den.any (· ∈ operators) = true ∨ WritesAs .atom (canonicalForm den) b) :
    ReadsAlike (canonicalForm (bracketedIfAny operators num ++ '/' :: bracketedIfAny operators den))
      (.binary .div a b) := by
  have hnum : WritesAs .term (canonicalForm (bracketedIfAny operators num)) a :=
    term_of_bracketedIfAny (by decide) (by decide) ha
  obtain ⟨m, hm, htext⟩ :=
    exists_canonicalForm_side (.inl rfl) operators (bracketedIfAny operators num) den
  rw [htext]
  by_cases hany : den.any (· ∈ operators) = true
  · rw [if_pos hany]
    have hquot := (hnum.quotient (WritesAs.bracketed hb).unary_of_atom).expr_of_term
    exact ⟨_, infixToPostfix_of_writes hquot, .refl _⟩
  · rw [if_neg hany]
    obtain ⟨b', hb', halike⟩ := (hden.resolve_left hany).exists_zeros hm
    have hquot := (hnum.quotient hb'.unary_of_atom).expr_of_term
    exact ⟨_, infixToPostfix_of_writes hquot, .binary .div (.refl a) halike⟩

/-- Of a denominator that is a product without brackets only the first factors are divided by. -/
theorem atom_of_readsAlike {a b : Expr} (ha : Writes (canonicalForm num) a)
    (hb : Writes (canonicalForm den) b) (hany : ¬ den.any (· ∈ operators) = true)
    (hreads : ReadsAlike
      (canonicalForm (bracketedIfAny operators num ++ '/' :: bracketedIfAny operators den))
      (.binary .div a b)) : WritesAs .atom (canonicalForm den) b := by
  have hnum : WritesAs .term (canonicalForm (bracketedIfAny operators num)) a :=
    term_of_bracketedIfAny (by decide) (by decide) ha
  obtain ⟨m, hm, htext⟩ :=
    exists_canonicalForm_side (.inl rfl) operators (bracketedIfAny operators num) den
  rw [htext, if_neg hany] at hreads
  have hadd : '+' ∉ canonicalForm den := not_mem_canonicalForm hany (.inl rfl) (by decide)
  have hsub : '-' ∉ canonicalForm den := not_mem_canonicalForm hany (.inr (.inl rfl)) (by decide)
  have hpow : '^' ∉ canonicalForm den := not_mem_canonicalForm hany (.inr (.inr rfl)) (by decide)
  rcases (WritesAs.term_of_not_mem hb hadd hsub).unary_or_product with hunary | hprod
  · exact hunary.atom_of_not_mem hadd hsub hpow
  · exfalso
    obtain ⟨left, right, x, y, o, ho, hden, rfl, hleft, hright⟩ := hprod
    obtain ⟨d, ds, rfl⟩ := List.exists_cons_of_ne_nil hleft.ne_nil
    rw [hden] at hm hreads
    obtain ⟨x', hx', _⟩ := hleft.exists_zeros (m := m) hm
    obtain ⟨e, he⟩ := hnum.exists_quotient hx'
    have hwhole := (he.product ho hright).expr_of_term
    obtain ⟨e', hparse, halike⟩ := hreads
    -- what is read has the last factor of the denominator as its right side, so that factor would
    -- have to be alike to the denominator it is the end of
    rw [← List.append_assoc, ← List.append_assoc, ← List.cons_append, ← List.cons_append,
      ← List.append_assoc, ← List.append_assoc] at hparse
    obtain rfl := hwhole.eq_of_infixToPostfix hparse
    cases halike with
    | binary _ _ hright => exact Expr.Alike.right_ne hright

/-- **Fractions.** A fraction with two sides is read as the quotient of what they say, no part of
the denominator outside, exactly if the denominator holds one of the operators that put it in
brackets or is one atom: a number, a letter or a text in brackets. -/
theorem assemble_readsAlike_iff {a b : Expr} (leaves : List (Leaf κ))
    (hnum : inner c.numerator = .ok num) (hden : inner c.denominator = .ok den)
    (ha : Writes (canonicalForm num) a) (hb : Writes (canonicalForm den) b) :
    ∃ f, c.assemble inner leaves = .ok f ∧
      (ReadsAlike (canonicalForm f.text) (.binary .div a b) ↔
        den.any (· ∈ operators) = true ∨ WritesAs .atom (canonicalForm den) b) := by
  obtain ⟨f, hf, htext⟩ := exists_assemble leaves hnum hden
  refine ⟨f, hf, ?_⟩
  rw [htext]
  constructor
  · intro hreads
    by_cases hany : den.any (· ∈ operators) = true
    · exact .inl hany
    · exact .inr (atom_of_readsAlike ha hb hany hreads)
  · exact readsAlike_of_atom ha hb

end Candidate

/-- The number eight over a denominator. -/
def eightOver (text : List Char) : Candidate ℚ where
  bar := ⟨['-'], ⟨2, 2, 6, 0⟩, ⟨2, 2, 6, 0⟩⟩
  numerator := lineAt 2 1 ['8']
  denominator := lineAt 0 3 text
  span := ⟨0, 2 + text.length, by omega⟩

theorem writes_eight : Writes (canonicalForm ['8']) (.number ['8']) :=
  ⟨_, .ofTerm (.ofUnary (.ofPower (.ofAtom (.number (by decide) (List.all_eq_true.1 rfl))))),
    by decide⟩

theorem writes_sum :
    Writes (canonicalForm "x+1".toList) (.binary .add (.letter 'x') (.number ['1'])) := by
  have hletter : Derives .atom [.letter 'x'] (.letter 'x') := .letter (by decide)
  have hone : Derives .atom [.number ['1']] (.number ['1']) :=
    .number (by decide) (List.all_eq_true.1 rfl)
  exact ⟨_, .sum (.ofTerm (.ofUnary (.ofPower (.ofAtom hletter)))) (.inl rfl)
    (.ofUnary (.ofPower (.ofAtom hone))), by decide⟩

theorem assembleRow_eightOver_numerator (text : List Char) :
    bluntPage.assembleRow 1 (eightOver text).numerator = .ok ['8'] := by
  show bluntPage.assembleRow 1 (lineAt 2 1 ['8']) = _
  exact Page.assembleRow_of_isFlat 0 (by decide +kernel) (by decide +kernel) (by decide +kernel)

/-- A sum in the denominator is put in brackets and stays together. -/
theorem eightOver_sum_readsAlike :
    ∃ f, (eightOver "x+1".toList).assemble (bluntPage.assembleRow 1) [] = .ok f ∧
      ReadsAlike (canonicalForm f.text)
        (.binary .div (.number ['8']) (.binary .add (.letter 'x') (.number ['1']))) := by
  have hden : bluntPage.assembleRow 1 (eightOver "x+1".toList).denominator = .ok "x+1".toList :=
    Page.assembleRow_of_isFlat 0 (by decide +kernel) (by decide +kernel) (by decide +kernel)
  obtain ⟨f, hf, hreads⟩ :=
    Candidate.assemble_readsAlike_iff [] (assembleRow_eightOver_numerator _) hden
    writes_eight writes_sum
  exact ⟨f, hf, hreads.2 (.inl (by decide))⟩

theorem writes_twiceTwo :
    Writes (canonicalForm "2(2)".toList) (.binary .mul (.number ['2']) (.number ['2'])) := by
  have htwo : Derives .atom [.number ['2']] (.number ['2']) :=
    .number (by decide) (List.all_eq_true.1 rfl)
  have hbracket : Derives .atom [.opening '(', .number ['2'], .closing ')'] (.number ['2']) :=
    .bracket (by decide) (.ofTerm (.ofUnary (.ofPower (.ofAtom htwo))))
  exact ⟨_, .ofTerm (.product (.ofUnary (.ofPower (.ofAtom htwo))) (.inl rfl)
    (.ofPower (.ofAtom hbracket))), by decide⟩

/-- A product in the denominator that is written side by side falls apart: `8` over `2(2)` is read
as `8/2` times `2`. -/
theorem eightOver_product_misread :
    bluntPage.assembleRow 1 (eightOver "2(2)".toList).denominator = .ok "2(2)".toList ∧
    Writes (canonicalForm "2(2)".toList) (.binary .mul (.number ['2']) (.number ['2'])) ∧
    ∃ f, (eightOver "2(2)".toList).assemble (bluntPage.assembleRow 1) [] = .ok f ∧
      infixToPostfix (canonicalForm f.text) = .ok (Expr.binary .mul
        (.binary .div (.number ['8']) (.number ['2'])) (.number ['2'])).postorder ∧
      ¬ ReadsAlike (canonicalForm f.text)
        (.binary .div (.number ['8']) (.binary .mul (.number ['2']) (.number ['2']))) := by
  have hden : bluntPage.assembleRow 1 (eightOver "2(2)".toList).denominator = .ok "2(2)".toList :=
    Page.assembleRow_of_isFlat 0 (by decide +kernel) (by decide +kernel) (by decide +kernel)
  obtain ⟨f, hf, htext⟩ := Candidate.exists_assemble [] (assembleRow_eightOver_numerator _) hden
  have hread : infixToPostfix (canonicalForm f.text) = .ok (Expr.binary .mul
      (.binary .div (.number ['8']) (.number ['2'])) (.number ['2'])).postorder := by
    rw [htext]
    decide +kernel
  refine ⟨hden, writes_twiceTwo, f, hf, hread, ?_⟩
  rintro ⟨e, he, halike⟩
  obtain rfl := Expr.postorder_injective (Except.ok.inj (hread.symm.trans he))
  cases halike

/-! ## §3  Exponents -/

namespace Page

/-- What a base says: a digit, a letter, or what the text of a fraction says. -/
def BaseReads {κ : Type} : Node κ → Expr → Prop
  | .plain _ leaf, e => ∃ c, leaf.text = [c] ∧
      (c.isDigit = true ∧ e = .number [c] ∨ isLetter c = true ∧ e = .letter c)
  | .fraction f, e => Writes (canonicalForm f.text) e
  | .exponent _, _ => False

/-- The leaves that are assembled into a script, from its first node to its last. -/
def scriptLeaves {κ : Type} (leaves : List (Leaf κ)) (first : Node κ) (more : List (Node κ)) :
    List (Leaf κ) :=
  (first.span.join (more.getLast?.getD first).span).slice leaves

/-- A base is an atom in front of its script, whatever the script. -/
theorem exists_atom_of_baseReads {κ : Type} {base : Node κ} {b : Expr} (h : BaseReads base b) :
    ∃ text, WritesAs .atom text b ∧ ∀ right,
      canonicalForm (baseText base ++ '^' :: right) = text ++ '^' :: canonicalForm right := by
  cases base with
  | plain i leaf =>
      obtain ⟨c, hleaf, hc⟩ := h
      have htext : baseText (.plain i leaf) = [c] := hleaf
      rw [htext]
      rcases hc with ⟨hdigit, rfl⟩ | ⟨hletter, rfl⟩
      · have hnumeric : ∀ d ∈ [c], isNumeric d = true := by simp [isNumeric, hdigit]
        refine ⟨[c], ⟨_, .number (List.cons_ne_nil c []) hnumeric, rfl⟩, ?_⟩
        exact canonicalForm_operand_power (by simp [isOperandChar, hdigit])
      · refine ⟨[c], ⟨_, .letter hletter, rfl⟩, ?_⟩
        exact canonicalForm_operand_power (by simp [isOperandChar, hletter])
  | fraction f => exact ⟨_, WritesAs.bracketed h, canonicalForm_bracketed_power f.text⟩
  | exponent x => cases h

variable {κ : Type} [Coordinate κ] {inner : List (Leaf κ) → Except LimitPassed (List Char)}
  {base first : Node κ} {more : List (Node κ)} {script : List Char}

theorem exists_assembleExponent {leaves : List (Leaf κ)}
    (hscript : inner (scriptLeaves leaves first more) = .ok script) :
    ∃ x, assembleExponent inner leaves base first more = .ok x ∧
      x.text = baseText base ++ '^' :: bracketedIfAny scriptOperators script := by
  unfold scriptLeaves at hscript
  unfold assembleExponent
  dsimp only
  rw [hscript]
  exact ⟨_, rfl, rfl⟩

/-- A script in brackets, or one that is a unary phrase, is the whole exponent. -/
theorem infixToPostfix_of_unary {b s : Expr} {text : List Char} (hbase : WritesAs .atom text b)
    (hs : Writes (canonicalForm script) s)
    (hunary : script.any (· ∈ scriptOperators) = true ∨ WritesAs .unary (canonicalForm script) s) :
    infixToPostfix (text ++ '^' :: canonicalForm (bracketedIfAny scriptOperators script)) =
      .ok (Expr.binary .pow b s).postorder := by
  unfold bracketedIfAny
  by_cases hany : script.any (· ∈ scriptOperators) = true
  · rw [if_pos hany, canonicalForm_bracketed]
    have hexp := hbase.raised (WritesAs.bracketed hs).unary_of_atom
    exact infixToPostfix_of_writes hexp.term_of_unary.expr_of_term
  · rw [if_neg hany]
    have hexp := hbase.raised (hunary.resolve_left hany)
    exact infixToPostfix_of_writes hexp.term_of_unary.expr_of_term

/-- Of a script that is a product without brackets only the first factor is in the exponent. -/
theorem unary_of_infixToPostfix {b s : Expr} {text : List Char} (hbase : WritesAs .atom text b)
    (hs : Writes (canonicalForm script) s) (hany : ¬ script.any (· ∈ scriptOperators) = true)
    (hreads : infixToPostfix
        (text ++ '^' :: canonicalForm (bracketedIfAny scriptOperators script)) =
      .ok (Expr.binary .pow b s).postorder) :
    WritesAs .unary (canonicalForm script) s := by
  have hterm : WritesAs .term (canonicalForm (bracketedIfAny scriptOperators script)) s :=
    term_of_bracketedIfAny (by decide) (by decide) hs
  unfold bracketedIfAny at hterm hreads
  rw [if_neg hany] at hterm hreads
  rcases hterm.unary_or_product with hunary | hprod
  · exact hunary
  · exfalso
    obtain ⟨left, right, x, y, o, ho, hscript, rfl, hleft, hright⟩ := hprod
    obtain ⟨e, he⟩ := hbase.exists_raised hleft
    have hwhole := (he.product ho hright).expr_of_term
    rw [hscript, ← List.cons_append, ← List.cons_append, ← List.append_assoc, ← List.append_assoc]
      at hreads
    have heq := hwhole.eq_of_infixToPostfix hreads
    -- a product or quotient at the top is no power
    rcases ho with rfl | rfl
    · cases heq
    · cases heq

/-- **Exponents.** A digit, a letter or a fraction with a script is read as the power of what they
say, no part of the script outside, exactly if the script holds one of the operators that put it in
brackets or is one unary phrase: signs, an atom, or a power of one. -/
theorem assembleExponent_reads_iff {b s : Expr} {leaves : List (Leaf κ)} (hbase : BaseReads base b)
    (hscript : inner (scriptLeaves leaves first more) = .ok script)
    (hs : Writes (canonicalForm script) s) :
    ∃ x, assembleExponent inner leaves base first more = .ok x ∧
      (infixToPostfix (canonicalForm x.text) = .ok (Expr.binary .pow b s).postorder ↔
        script.any (· ∈ scriptOperators) = true ∨ WritesAs .unary (canonicalForm script) s) := by
  obtain ⟨x, hx, htext⟩ := exists_assembleExponent hscript
  obtain ⟨text, hatom, hcanonical⟩ := exists_atom_of_baseReads hbase
  refine ⟨x, hx, ?_⟩
  rw [htext, hcanonical]
  constructor
  · intro hreads
    by_cases hany : script.any (· ∈ scriptOperators) = true
    · exact .inl hany
    · exact .inr (unary_of_infixToPostfix hatom hs hany hreads)
  · exact infixToPostfix_of_unary hatom hs

end Page

/-- The number two with a raised line. -/
def twoTo (text : List Char) : List (Leaf ℚ) := lineAt 0 2 ['2'] ++ lineAt 1 1 text

/-- A symbol of the raised line. -/
def raisedNode (place : ℕ) (c : Char) : Node ℚ :=
  .plain place ⟨[c], ⟨place, 1, 1, 1⟩, ⟨place, 1, 1, 1⟩⟩

def twoNode : Node ℚ := .plain 0 ⟨['2'], ⟨0, 2, 1, 1⟩, ⟨0, 2, 1, 1⟩⟩

theorem baseReads_twoNode : Page.BaseReads twoNode (.number ['2']) :=
  ⟨'2', rfl, .inl ⟨by decide, rfl⟩⟩

/-- A sum in a script is put in brackets and stays together. -/
theorem twoTo_sum_reads :
    ∃ x, Page.assembleExponent (bluntPage.assembleRow 1)
      (twoTo "x+1".toList) twoNode (raisedNode 1 'x')
        [raisedNode 2 '+', raisedNode 3 '1'] = .ok x ∧
      infixToPostfix (canonicalForm x.text) = .ok (Expr.binary .pow (.number ['2'])
        (.binary .add (.letter 'x') (.number ['1']))).postorder := by
  have hscript : bluntPage.assembleRow 1 (Page.scriptLeaves (twoTo "x+1".toList) (raisedNode 1 'x')
      [raisedNode 2 '+', raisedNode 3 '1']) = .ok "x+1".toList := by
    show bluntPage.assembleRow 1 (lineAt 1 1 "x+1".toList) = _
    exact Page.assembleRow_of_isFlat 0 (by decide +kernel) (by decide +kernel) (by decide +kernel)
  obtain ⟨x, hx, hreads⟩ := Page.assembleExponent_reads_iff baseReads_twoNode hscript writes_sum
  exact ⟨x, hx, hreads.2 (.inl (by decide))⟩

/-- A product in a script that is written side by side falls apart: `2` with the script `2(2)` is
read as `2^2` times `2`. -/
theorem twoTo_product_misread :
    bluntPage.assembleRow 1 (Page.scriptLeaves (twoTo "2(2)".toList) (raisedNode 1 '2')
      [raisedNode 2 '(', raisedNode 3 '2', raisedNode 4 ')']) = .ok "2(2)".toList ∧
    Writes (canonicalForm "2(2)".toList) (.binary .mul (.number ['2']) (.number ['2'])) ∧
    ∃ x, Page.assembleExponent (bluntPage.assembleRow 1)
      (twoTo "2(2)".toList) twoNode (raisedNode 1 '2')
        [raisedNode 2 '(', raisedNode 3 '2', raisedNode 4 ')'] = .ok x ∧
      infixToPostfix (canonicalForm x.text) = .ok (Expr.binary .mul
        (.binary .pow (.number ['2']) (.number ['2'])) (.number ['2'])).postorder ∧
      infixToPostfix (canonicalForm x.text) ≠ .ok (Expr.binary .pow (.number ['2'])
        (.binary .mul (.number ['2']) (.number ['2']))).postorder := by
  have hscript : bluntPage.assembleRow 1 (Page.scriptLeaves (twoTo "2(2)".toList) (raisedNode 1 '2')
      [raisedNode 2 '(', raisedNode 3 '2', raisedNode 4 ')']) = .ok "2(2)".toList := by
    show bluntPage.assembleRow 1 (lineAt 1 1 "2(2)".toList) = _
    exact Page.assembleRow_of_isFlat 0 (by decide +kernel) (by decide +kernel) (by decide +kernel)
  obtain ⟨x, hx, htext⟩ := Page.exists_assembleExponent hscript
  refine ⟨hscript, writes_twiceTwo, x, hx, ?_, ?_⟩
  · rw [htext]
    decide +kernel
  · rw [htext]
    decide +kernel

end InkAlgebra

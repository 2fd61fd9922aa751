import Mathlib
import InkAlgebra.Proofs.Expression.Apart
import InkAlgebra.Proofs.Layout.Grouping
import InkAlgebra.Proofs.Layout.Products

/-!
# Fractions without brackets

Between some neighbours the layout puts a fraction in brackets, and between others it leaves them
off. Where they are left off it ought to make no difference, and for a fraction that stands apart it
makes none: not to what the row is worth as an expression, not to what it is worth as an equation in
whatever unknown, and not to its tokens. Nothing is asked of the row but that the sides of the
fraction are expressions.

The layout does not see to it that a fraction stands apart. It looks at the label of the symbol to
the left, and puts no brackets behind a digit, which goes on into the numerator, nor in front of
one; and operators that it puts brackets for are missing from its list, or hidden behind a sign.

Brackets may change the order in which factors are multiplied, and with it whether some product of
degrees beyond the range of words is met on the way. Apart from that the polynomials are the same.

§1 says that fractions are terms, §2 is rows, §3 are pages.
-/

namespace InkAlgebra

variable {κ : Type}

/-! ## §1  Fractions are terms -/

namespace Candidate

variable [Coordinate κ] {inner : List (Leaf κ) → Except LimitPassed (List Char)} {c : Candidate κ}
  {f : Composite κ} {num den : List Char} {leaves : List (Leaf κ)}

theorem text_of_assemble (hf : c.assemble inner leaves = .ok f) (hnum : inner c.numerator = .ok num)
    (hden : inner c.denominator = .ok den) :
    f.text = bracketedIfAny operators num ++ '/' :: bracketedIfAny operators den := by
  obtain ⟨f', hf', htext⟩ := exists_assemble leaves hnum hden
  obtain rfl : f' = f := Except.ok.inj (hf'.symm.trans hf)
  exact htext

/-- A fraction whose sides are expressions is a term, though not always their quotient. -/
theorem exists_term (hf : c.assemble inner leaves = .ok f) (hnum : inner c.numerator = .ok num)
    (hden : inner c.denominator = .ok den) {a b : Expr} (ha : Writes (canonicalForm num) a)
    (hb : Writes (canonicalForm den) b) : ∃ e, WritesAs .term (canonicalForm f.text) e := by
  have hnum' : WritesAs .term (canonicalForm (bracketedIfAny operators num)) a :=
    term_of_bracketedIfAny (by decide) (by decide) ha
  obtain ⟨m, hm, hsplit⟩ :=
    exists_canonicalForm_side (.inl rfl) operators (bracketedIfAny operators num) den
  rw [text_of_assemble hf hnum hden, hsplit]
  by_cases hany : den.any (· ∈ operators) = true
  · rw [if_pos hany]
    exact ⟨_, hnum'.quotient (WritesAs.bracketed hb).unary_of_atom⟩
  · rw [if_neg hany]
    have hden' : WritesAs .term (canonicalForm den) b := by
      apply WritesAs.term_of_not_mem hb
      · exact not_mem_canonicalForm hany (.inl rfl) (by decide)
      · exact not_mem_canonicalForm hany (.inr (.inl rfl)) (by decide)
    obtain ⟨b', hb', _⟩ := hden'.exists_zeros hm
    exact hnum'.exists_quotient hb'

/-- No fraction starts with a sign. -/
theorem isSignChar_head (hf : c.assemble inner leaves = .ok f) (hnum : inner c.numerator = .ok num)
    (hden : inner c.denominator = .ok den) {a : Expr} (ha : Writes (canonicalForm num) a) :
    ∀ d ∈ f.text.head?, isSignChar d = false := by
  intro d hd
  rw [text_of_assemble hf hnum hden, bracketedIfAny] at hd
  split at hd
  · cases hd
    rfl
  · rename_i hany
    cases num with
    | nil => exact absurd rfl ha.ne_nil
    | cons x num =>
        cases hd
        rw [List.any_cons, Bool.or_eq_true, not_or] at hany
        have hoperator : d ∉ operators := fun hmem => hany.1 (decide_eq_true hmem)
        cases hsign : isSignChar d with
        | false => rfl
        | true =>
            apply absurd _ hoperator
            rcases (Bool.or_eq_true ..).mp hsign with h | h
            · exact of_decide_eq_true h ▸ (by decide)
            · exact of_decide_eq_true h ▸ (by decide)

end Candidate

/-! ## §2  Rows with a fraction -/

/-- A fraction in brackets. -/
def Composite.inBrackets (f : Composite κ) : Composite κ :=
  { f with text := '(' :: f.text ++ [')'] }

namespace Page

/-- The joined texts of nodes in front of a fraction. -/
def textBefore : List (Node κ) → List Char
  | [] => []
  | .exponent x :: rest =>
      x.text ++ (if rest.isEmpty then ['.'] else markBefore rest) ++ textBefore rest
  | n :: rest => n.text ++ textBefore rest

theorem joinTexts_around (before after : List (Node κ)) (f : Composite κ) :
    joinTexts (before ++ .fraction f :: after) =
        textBefore before ++ f.text ++ joinTexts after := by
  induction before with
  | nil => exact joinTexts_fraction f after
  | cons n before ih =>
      have hmark : markBefore (before ++ .fraction f :: after) =
          if before.isEmpty then ['.'] else markBefore before := by
        cases before with
        | nil => rfl
        | cons m before => cases m <;> rfl
      rw [List.cons_append]
      cases n with
      | plain place leaf => rw [joinTexts_plain, ih, textBefore] <;> simp [Node.text]
      | fraction g => rw [joinTexts_fraction, ih, textBefore] <;> simp [Node.text]
      | exponent x =>
          rw [joinTexts_exponent, ih, textBefore, hmark]
          simp only [List.append_assoc]

/-- A fraction is put into the row as it is or in brackets. -/
theorem standAlone_eq_or (leaves : List (Leaf κ)) (f : Composite κ) (next : Option (Node κ)) :
    standAlone leaves (.fraction f) next = .fraction f ∨
      standAlone leaves (.fraction f) next = .fraction f.inBrackets := by
  obtain ⟨bracketed, heq⟩ := exists_standAlone_fraction leaves f next
  rw [heq]
  cases bracketed with
  | false => exact .inl rfl
  | true => exact .inr rfl

/-- The canonical form of a row. -/
def rowText (nodes : List (Node κ)) : List Char := canonicalForm (joinTexts nodes)

theorem rowText_around (before after : List (Node κ)) (f : Composite κ) :
    rowText (before ++ .fraction f :: after) =
        canonicalForm (textBefore before ++ f.text ++ joinTexts after) :=
  congrArg canonicalForm (joinTexts_around before after f)

/-- The letters of a row are those of its pieces; brackets are none. -/
theorem countP_rowText (before after : List (Node κ)) (f : Composite κ) :
    (rowText (before ++ .fraction f :: after)).countP isLetter =
        (textBefore before ++ f.text ++ joinTexts after).countP isLetter ∧
      (rowText (before ++ .fraction f.inBrackets :: after)).countP isLetter =
        (textBefore before ++ f.text ++ joinTexts after).countP isLetter := by
  have hopening : isLetter '(' = false := by decide
  have hclosing : isLetter ')' = false := by decide
  rw [rowText_around, rowText_around, countP_isLetter_canonicalForm, countP_isLetter_canonicalForm]
  refine ⟨rfl, ?_⟩
  simp [Composite.inBrackets, List.countP_append, hopening, hclosing]

open Exact

/-- **Fractions without brackets.** If a fraction whose sides are expressions stands apart wherever
it is left without brackets, its row has the polynomial that it has with brackets around the
fraction, or both rows have none; the same is true of the equation in the row, whatever letters are
put for its letters. Nothing is said where one of them breaks off, and none does as long as the cap
leaves room for each letter. And the tokens of the fraction are those that it has by itself, up to
the spelling of numbers: none of them goes on into what stands beside it. -/
theorem standAlone_keeps_polynomial [Coordinate κ] {K : Type} [Field K] [LinearOrder K]
    [IsStrictOrderedRing K] [FloorRing K] {inner : List (Leaf κ) → Except LimitPassed (List Char)}
    {c : Candidate κ} {f : Composite κ} {num den : List Char} {a b : Expr} (leaves : List (Leaf κ))
    (hf : c.assemble inner leaves = .ok f) (hnum : inner c.numerator = .ok num)
    (hden : inner c.denominator = .ok den) (ha : Writes (canonicalForm num) a)
    (hb : Writes (canonicalForm den) b) (before after : List (Node κ)) (next : Option (Node κ))
    (hapart : standAlone leaves (.fraction f) next = .fraction f →
      StandsApart (textBefore before) f.text (joinTexts after)) (maxDegree : UInt32) :
    let row := rowText (before ++ standAlone leaves (.fraction f) next :: after)
    let bracketed := rowText (before ++ .fraction f.inBrackets :: after)
    SameUnlessOverflow (Polynomial.ofExpression (α := K) maxDegree row)
      (Polynomial.ofExpression maxDegree bracketed) ∧
    (∀ g, Relabels g → SameUnlessOverflow (equationPolynomial (α := K) maxDegree (row.map g))
      (equationPolynomial maxDegree (bracketed.map g))) ∧
    ((textBefore before ++ f.text ++ joinTexts after).countP isLetter * max maxDegree.toNat 1 <
        UInt32.size →
      (Polynomial.ofExpression (α := K) maxDegree row).toOption =
          (Polynomial.ofExpression maxDegree bracketed).toOption ∧
        ∀ g, Relabels g → (equationPolynomial (α := K) maxDegree (row.map g)).toOption =
          (equationPolynomial maxDegree (bracketed.map g)).toOption) ∧
    ∃ front piece behind, (piece = tokenize (canonicalForm f.text) ∨
        piece = .opening '(' :: tokenize (canonicalForm f.text) ++ [.closing ')']) ∧
      AlikeRows (tokenize row) (front ++ (piece ++ behind)) ∧
      AlikeRows (tokenize bracketed)
        (front ++ (.opening '(' :: tokenize (canonicalForm f.text) ++
            [.closing ')'] ++ behind)) := by
  intro row bracketed
  have hbracketed := alikeRows_in_brackets (textBefore before) f.text (joinTexts after)
  have hrow : bracketed =
      canonicalForm (textBefore before ++ ('(' :: f.text ++ [')']) ++ joinTexts after) :=
    rowText_around before after f.inBrackets
  rcases standAlone_eq_or leaves f next with hbare | hwrapped
  · obtain ⟨e, hterm⟩ := Candidate.exists_term hf hnum hden ha hb
    have hhead := Candidate.isSignChar_head hf hnum hden ha
    have h := hapart hbare
    have hbareRow : row = canonicalForm (textBefore before ++ f.text ++ joinTexts after) := by
      show rowText (before ++ standAlone leaves (.fraction f) next :: after) = _
      rw [hbare, rowText_around]
    have hexpression : SameUnlessOverflow (Polynomial.ofExpression (α := K) maxDegree row)
        (Polynomial.ofExpression maxDegree bracketed) := by
      have hformal := h.formalValue_eq (K := K) hterm hhead maxDegree.toNat
      rw [← hbareRow, ← hrow] at hformal
      have hagrees := agrees_ofExpression (K := K) maxDegree row
      rw [hformal] at hagrees
      exact hagrees.sameUnlessOverflow (agrees_ofExpression maxDegree bracketed)
    have hequation : ∀ g, Relabels g → SameUnlessOverflow
        (equationPolynomial (α := K) maxDegree (row.map g))
        (equationPolynomial maxDegree (bracketed.map g)) := by
      intro g hg
      have hformal := h.formalEquation_map (K := K) hg hterm hhead maxDegree.toNat
      rw [← hbareRow, ← hrow] at hformal
      have hagrees := agrees_equationPolynomial (K := K) maxDegree (row.map g)
      rw [hformal] at hagrees
      exact hagrees.sameUnlessOverflow (agrees_equationPolynomial maxDegree (bracketed.map g))
    refine ⟨hexpression, hequation, ?_, ?_⟩
    · intro hroom
      obtain ⟨hcount, hcount'⟩ := countP_rowText before after f
      rw [← hcount] at hroom
      have hfits := ne_overflow_of_countP (α := K) hroom
      rw [hcount, ← hcount'] at hroom
      have hfits' := ne_overflow_of_countP (α := K) hroom
      have hsame : row = rowText (before ++ .fraction f :: after) := by
        rw [hbareRow, rowText_around]
      rw [← hsame] at hfits
      exact ⟨hexpression hfits.1 hfits'.1, fun g hg =>
        hequation g hg (hfits.2 g hg) (hfits'.2 g hg)⟩
    · rw [hbareRow, hrow]
      exact ⟨_, _, _, .inl rfl, (h.alikeRows hterm hhead).1, hbracketed⟩
  · have hsame : row = bracketed := by
      show rowText (before ++ standAlone leaves (.fraction f) next :: after) = _
      rw [hwrapped]
    rw [hsame, hrow]
    exact ⟨fun _ _ => rfl, fun _ _ _ _ => rfl, fun _ => ⟨rfl, fun _ _ => rfl⟩, _, _, _, .inr rfl,
      hbracketed, hbracketed⟩

end Page

/-! ## §3  Pages -/

/-- A half between two differences. -/
def threeLessHalf : List (Detection Float) :=
  [symbolAt "3" 0.1 0.5 0.05 0.1, symbolAt "-" 0.2 0.5 0.05 0.01, symbolAt "-" 0.35 0.5 0.1 0.01,
    symbolAt "1" 0.35 0.4 0.05 0.1, symbolAt "2" 0.35 0.6 0.05 0.1, symbolAt "-" 0.5 0.5 0.05 0.01,
    symbolAt "x" 0.65 0.5 0.05 0.1]

def threeLessHalfLeaves : List (Leaf Float) := threeLessHalf.map (.ofDetection .standard)

/-- The half. -/
def half : Candidate Float where
  bar := .ofDetection .standard (symbolAt "-" 0.35 0.5 0.1 0.01)
  numerator := [.ofDetection .standard (symbolAt "1" 0.35 0.4 0.05 0.1)]
  denominator := [.ofDetection .standard (symbolAt "2" 0.35 0.6 0.05 0.1)]
  span := ⟨2, 5, by decide⟩

theorem writes_digit {c : Char} (h : isNumeric c = true) : Writes [c] (.number [c]) := by
  have hatom : Derives .atom [.number [c]] (.number [c]) :=
    .number (List.cons_ne_nil c []) (List.forall_mem_singleton.2 h)
  exact ⟨_, .ofTerm (.ofUnary (.ofPower (.ofAtom hatom))), rfl⟩

/-- The nodes on both sides of it. -/
def beforeHalf : List (Node Float) := plainNodes 0 (threeLessHalfLeaves.take 2)

def afterHalf : List (Node Float) := plainNodes 5 (threeLessHalfLeaves.drop 5)

theorem texts_around_half :
    Page.textBefore beforeHalf = ['3', '-'] ∧ Page.joinTexts afterHalf = ['-', 'x'] := by
  decide +kernel

theorem standsApart_half : StandsApart ['3', '-'] ['1', '/', '2'] ['-', 'x'] where
  left := by
    rintro l ⟨⟩ h ⟨⟩
    decide
  right := by
    rintro e ⟨⟩ r ⟨⟩
    decide
  waiting := by
    rintro c ⟨⟩
    decide
  raised := by decide

open Exact in
/-- The half is left without brackets, and this makes no difference. -/
theorem threeLessHalf_keeps_polynomial :
    assemble standardPage threeLessHalf = .ok "3-1/2-x".toList ∧
    ∃ f, half.assemble (standardPage.assembleRow 64) threeLessHalfLeaves = .ok f ∧
      f.text = ['1', '/', '2'] ∧
      Page.standAlone threeLessHalfLeaves (.fraction f) afterHalf.head? = .fraction f ∧
      (Polynomial.ofExpression (α := ℚ) 256 (Page.rowText (beforeHalf ++
          Page.standAlone threeLessHalfLeaves (.fraction f) afterHalf.head? ::
            afterHalf))).toOption =
        (Polynomial.ofExpression 256
            (Page.rowText (beforeHalf ++ .fraction f.inBrackets :: afterHalf))).toOption := by
  have hpage : assemble standardPage threeLessHalf = .ok "3-1/2-x".toList := by
    rw [assemble_of_sorted (by decide +kernel)]
    decide +kernel
  have hnum : standardPage.assembleRow 64 half.numerator = .ok ['1'] :=
    Page.assembleRow_of_isFlat 63 (by decide +kernel) (by decide +kernel) (by decide +kernel)
  have hden : standardPage.assembleRow 64 half.denominator = .ok ['2'] :=
    Page.assembleRow_of_isFlat 63 (by decide +kernel) (by decide +kernel) (by decide +kernel)
  obtain ⟨f, hf, htext⟩ := Candidate.exists_assemble threeLessHalfLeaves hnum hden
  have hpiece : f.text = ['1', '/', '2'] := htext
  have hapart : StandsApart (Page.textBefore beforeHalf) f.text (Page.joinTexts afterHalf) := by
    rw [texts_around_half.1, texts_around_half.2, hpiece]
    exact standsApart_half
  have hbare : Page.standAlone threeLessHalfLeaves (.fraction f) afterHalf.head? = .fraction f := by
    unfold Candidate.assemble at hf
    rw [hnum, hden] at hf
    cases hf
    rfl
  obtain ⟨_, _, hsame, _⟩ :=
    Page.standAlone_keeps_polynomial (K := ℚ) threeLessHalfLeaves hf hnum hden
    (writes_digit (by decide)) (writes_digit (by decide)) beforeHalf afterHalf afterHalf.head?
    (fun _ => hapart) 256
  have hroom : (Page.textBefore beforeHalf ++ f.text ++ Page.joinTexts afterHalf).countP isLetter *
      max (256 : UInt32).toNat 1 < UInt32.size := by
    rw [texts_around_half.1, texts_around_half.2, hpiece]
    decide +kernel
  exact ⟨hpage, f, hf, hpiece, hbare, (hsame hroom).1⟩

/-- A half behind a digit. -/
def halfBehindTwo : List (Detection Float) :=
  [symbolAt "2" 0.1 0.5 0.05 0.1, symbolAt "-" 0.25 0.5 0.1 0.01, symbolAt "1" 0.25 0.4 0.05 0.1,
    symbolAt "2" 0.25 0.6 0.05 0.1, symbolAt "-" 0.5 0.5 0.1 0.01, symbolAt "x" 0.7 0.5 0.05 0.1]

open Exact in
/-- The terms of a row that is worked out with fractions. -/
def exactTerms (text : String) : Option (List (Term ℚ)) :=
  (Polynomial.ofExpression (α := ℚ) 256 (canonicalForm text.toList)).toOption.map Polynomial.terms

/-- No brackets are put behind a digit, and the digit goes on into the numerator: `2` and a half,
less `x`, is read as twenty-one halves less `x`. -/
theorem halfBehindTwo_misread :
    assemble standardPage halfBehindTwo = .ok "21/2-x".toList ∧
      Label.bracketsFraction ['2'] ['-'] = false ∧
      exactTerms "21/2-x" = some [(0, 21 / 2), (1, -1)] ∧
        exactTerms "2(1/2)-x" = some [(0, 1), (1, -1)] := by
  refine ⟨?_, by decide, by decide +kernel, by decide +kernel⟩
  rw [assemble_of_sorted (by decide +kernel)]
  decide +kernel

/-- Nothing that standing apart asks can be spared: that no number goes on behind the fraction, that
no power follows, that no quotient stands in front of a sign in front of it, that no power stands in
front. Nor can the sides be any texts: `4)` over `(2` opens and closes the wrong brackets. No
brackets are put between any of these neighbours. -/
theorem standsApart_conditions_needed :
    (Label.bracketsFraction [] ['2'] = false ∧ exactTerms "1/22-x" ≠ exactTerms "(1/2)2-x") ∧
    (Label.bracketsFraction [] ['^'] = false ∧ exactTerms "3/2^2-x" ≠ exactTerms "(3/2)^2-x") ∧
    (Label.bracketsFraction ['-'] ['-'] = false ∧ exactTerms "8/-1/2-x" ≠ exactTerms "8/-(1/2)-x") ∧
    (Label.bracketsFraction ['^'] ['-'] = false ∧ exactTerms "9^4/2-x" ≠ exactTerms "9^(4/2)-x") ∧
    (Label.bracketsFraction ['-'] ['-'] = false ∧ exactTerms "(2-4)/(2-3)-x" ≠
        exactTerms "(2-(4)/(2)-3)-x") := by
  decide +kernel

end InkAlgebra

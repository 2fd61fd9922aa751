import Mathlib
import InkAlgebra.Polynomial.Parse
import InkAlgebra.Proofs.Expression.Parsing
import InkAlgebra.Proofs.Expression.Value
import InkAlgebra.Proofs.Polynomial.Formal

/-!
# Evaluation and substitution

The polynomial of an expression has at every number the value that the expression has there. Three
readings of one tree are compared: the polynomial that the machine computes, the formal polynomial
that the tree stands for, and the value of the tree at a number. The first two agree as long as the
degrees of the factors of every product fit together into 32 bits, and the last two always do.

The condition on products is exact. Beyond it the machine breaks off, and it could do no better: a
polynomial with 32-bit degrees cannot have the values of one whose degree needs more.

§1 is the formal reading, §2 its agreement with the machine, §3 its agreement with the values, §4
the two together, §5 that the condition is exact.
-/

open Polynomial

namespace InkAlgebra

open Exact Polynomial

/-! ## §1  The formal polynomial of a tree -/

namespace Expr

/-- Whether a text is a decimal: digits with at most one point among them, and at least one
digit. -/
def IsDecimal (text : List Char) : Prop :=
  (∀ c ∈ text, isNumeric c = true) ∧ (decimal? text).isSome = true

/-- Whether a tree is over the variable `x`, with decimals for its numbers. -/
def OverX : Expr → Prop
  | number text => IsDecimal text
  | letter c => c = 'x'
  | signed _ a => a.OverX
  | binary _ a b => a.OverX ∧ b.OverX

variable (K : Type) [Field K] [LinearOrder K] [FloorRing K]

/-- The formal polynomial that a tree stands for. A quotient is by the constant term of the divisor
and a power is to the whole part of that of the exponent, which is all of it where it is legal. -/
noncomputable def polynomial : Expr → K[X]
  | number text => C (((decimal? text).map (decimalValue K)).getD 0)
  | letter _ => X
  | signed .plus a => a.polynomial
  | signed .minus a => -a.polynomial
  | binary .add a b => a.polynomial + b.polynomial
  | binary .sub a b => a.polynomial - b.polynomial
  | binary .mul a b => a.polynomial * b.polynomial
  | binary .div a b => a.polynomial * C (b.polynomial.coeff 0)⁻¹
  | binary .pow a b => a.polynomial ^ ⌊b.polynomial.coeff 0⌋.toNat

/-- Whether every divisor of a tree is a constant other than zero, and every exponent a natural
number that keeps the degree of its power within the cap. -/
def Legal (cap : ℕ) : Expr → Prop
  | number _ => True
  | letter _ => True
  | signed _ a => a.Legal cap
  | binary o a b => a.Legal cap ∧ b.Legal cap ∧
    match o with
    | .div => IsDivisor (b.polynomial K)
    | .pow => IsExponentFor cap (a.polynomial K) (b.polynomial K)
    | _ => True

/-- Whether the degrees of the factors of every product add up to less than `2 ^ 32`. Factors that
are not legal are never multiplied. -/
def DegreesFit (cap : ℕ) : Expr → Prop
  | number _ => True
  | letter _ => True
  | signed _ a => a.DegreesFit cap
  | binary o a b => a.DegreesFit cap ∧ b.DegreesFit cap ∧
    (o = .mul → a.Legal K cap → b.Legal K cap →
      (a.polynomial K).natDegree + (b.polynomial K).natDegree < 2 ^ 32)

theorem OverX.of_mem_parts {e : Expr} (h : e.OverX) : ∀ d ∈ e.parts, d.OverX :=
  Expr.of_mem_parts id id h

variable {K} in
theorem DegreesFit.of_mem_parts {cap : ℕ} {e : Expr} (h : e.DegreesFit K cap) :
    ∀ d ∈ e.parts, d.DegreesFit K cap :=
  Expr.of_mem_parts id (fun hbinary => ⟨hbinary.1, hbinary.2.1⟩) h

end Expr

/-! ## §2  The machine and the formal polynomial -/

section

variable {K : Type} [Field K] [LinearOrder K] [FloorRing K]

theorem yields_number {text : List Char} (h : Expr.IsDecimal text) (cap : UInt32) :
    Yields
      ((meaning cap : Meaning (Halt (EquationError K)) (Polynomial K)).value (.number text))
      True ((Expr.number text).polynomial K) := by
  obtain ⟨hnum, hsome⟩ := h
  obtain ⟨d, hd⟩ := Option.isSome_iff_exists.1 hsome
  have hne : text ≠ [] := by
    rintro rfl
    exact absurd hsome (by decide)
  have hread : readNumber? K text = some (decimalValue K d) := by
    rw [readNumber?_of_isNumeric hne hnum, hd]
    rfl
  have hvalue :
      (meaning cap : Meaning (Halt (EquationError K)) (Polynomial K)).value (.number text) =
      .ok (constant (decimalValue K d)) := by
    simp [Meaning.value, meaning, ofOperand?, hread]
  rw [hvalue, Expr.polynomial, hd]
  exact ⟨trivial, denotes_constant _⟩

theorem ofExpression_of_writes {α : Type} [Coefficient α] {text : List Char} {e : Expr}
    (h : Writes text e) (cap : UInt32) :
    ofExpression cap text =
        (meaning cap : Meaning (Halt (EquationError α)) (Polynomial α)).value e := by
  unfold ofExpression ofPostfix
  rw [infixToPostfix_of_writes h, ← Meaning.run_postorder]
  rfl

variable [IsStrictOrderedRing K]

/-- **The machine computes the formal polynomial.** Where the degrees of all products fit, running a
tree succeeds exactly where it is legal, with a polynomial that stands for the formal one. -/
theorem yields_value (cap : UInt32) {e : Expr} (hx : e.OverX) (hfit : e.DegreesFit K cap.toNat) :
    Yields ((meaning cap : Meaning (Halt (EquationError K)) (Polynomial K)).value e)
      (e.Legal K cap.toNat) (e.polynomial K) := by
  induction e with
  | number text => exact yields_number hx cap
  | letter c =>
      obtain rfl : c = 'x' := hx
      exact ⟨trivial, denotes_indeterminate⟩
  | signed s a ih =>
      have ha := ih hx hfit
      cases s with
      | plus => exact ha.map fun p hp => hp
      | minus => exact ha.map fun p hp => hp.neg
  | binary o a b ihA ihB =>
      obtain ⟨hfitA, hfitB, hmul⟩ := hfit
      have ha := ihA hx.1 hfitA
      have hb := ihB hx.2 hfitB
      cases o with
      | add => exact ha.bind₂ hb fun p p' _ _ hp hp' => ⟨trivial, hp.plus hp'⟩
      | sub => exact ha.bind₂ hb fun p p' _ _ hp hp' => ⟨trivial, hp.minus hp'⟩
      | mul =>
          -- the one operation that needs its degrees to fit
          exact ha.bind₂ hb fun p p' hlegalA hlegalB hp hp' =>
            hp.yields_multiply hp' (natDegree_mul_le.trans_lt (hmul rfl hlegalA hlegalB))
      | div => exact ha.bind₂ hb fun p p' _ _ hp hp' => (hp.divide hp').mapError _
      | pow => exact ha.bind₂ hb fun p p' _ _ hp hp' => hp.power hp' cap

/-! ## §3  The formal polynomial and the values -/

theorem powerValue_natCast (a : K) (n : ℕ) : powerValue a (n : K) = some (a ^ n) := by
  unfold powerValue
  rw [Int.floor_natCast, if_pos ⟨Int.cast_natCast n, .inl (Nat.cast_nonneg n)⟩, zpow_natCast]

/-- **Substitution.** A legal tree has a value at every number, that of its formal polynomial. -/
theorem valueAt_of_legal {cap : ℕ} {e : Expr} (hx : e.OverX) (hlegal : e.Legal K cap) (x : K) :
    e.valueAt (fun _ => x) = some ((e.polynomial K).eval x) := by
  induction e with
  | number text =>
      obtain ⟨d, hd⟩ := Option.isSome_iff_exists.1 hx.2
      simp [Expr.valueAt, Expr.polynomial, hd]
  | letter c => simp [Expr.valueAt, Expr.polynomial]
  | signed s a ih =>
      have ha := ih hx hlegal
      cases s <;> simp [Expr.valueAt, Expr.polynomial, ha, Sign.value]
  | binary o a b ihA ihB =>
      obtain ⟨hlegalA, hlegalB, hop⟩ := hlegal
      have ha := ihA hx.1 hlegalA
      have hb := ihB hx.2 hlegalB
      cases o with
      | add | sub | mul => simp [Expr.valueAt, Expr.polynomial, ha, hb, Operation.value]
      | div =>
          obtain ⟨c, hc, hpoly⟩ := hop
          simp [Expr.valueAt, Expr.polynomial, ha, hb, Operation.value, hpoly, hc, div_eq_mul_inv]
      | pow =>
          obtain ⟨n, hpoly, -⟩ := hop
          simp [Expr.valueAt, Expr.polynomial, ha, hb, Operation.value, hpoly, powerValue_natCast]

/-! ## §4  Evaluation is substitution -/

variable (K) in
/-- Whether evaluating a tree under a cap on degrees is substitution, however the tree is written:
it succeeds exactly if the tree is legal, and then has the value of the tree at every number. -/
def EvaluatesBySubstitution (cap : UInt32) (e : Expr) : Prop :=
  ∀ text, Writes text e →
    ((∃ p : Polynomial K, ofExpression cap text = .ok p) ↔ e.Legal K cap.toNat) ∧
    ∀ p : Polynomial K, ofExpression cap text = .ok p →
      ∀ x : K, e.valueAt (fun _ => x) = some (p.eval x)

theorem evaluatesBySubstitution_of_degreesFit (cap : UInt32) {e : Expr} (hx : e.OverX)
    (hfit : e.DegreesFit K cap.toNat) : EvaluatesBySubstitution K cap e := by
  intro text htext
  have hyields := yields_value cap hx hfit
  rw [← ofExpression_of_writes htext] at hyields
  refine ⟨hyields.ok_iff, ?_⟩
  intro p hp x
  rw [(hyields.denotes hp).eval x]
  exact valueAt_of_legal hx (hyields.ok_iff.1 ⟨p, hp⟩) x

/-! ## §5  The condition is exact -/

/-- Every tree over the variable can be written: as an atom, with brackets around all of its
nodes. -/
theorem exists_derives_atom {e : Expr} (hx : e.OverX) : ∃ row, Derives .atom row e := by
  induction e with
  | number text =>
      have hne : text ≠ [] := by
        rintro rfl
        exact absurd hx.2 (by decide)
      exact ⟨_, .number hne hx.1⟩
  | letter c =>
      obtain rfl : c = 'x' := hx
      exact ⟨_, .letter (by decide)⟩
  | signed s a ih =>
      obtain ⟨row, hrow⟩ := ih hx
      have hsign : Derives .unary (.op s.op :: row) (.signed s a) :=
        .sign s (.ofPower (.ofAtom hrow))
      exact ⟨_, .bracket List.mem_cons_self (.ofTerm (.ofUnary hsign))⟩
  | binary o a b ihA ihB =>
      obtain ⟨left, hleft⟩ := ihA hx.1
      obtain ⟨right, hright⟩ := ihB hx.2
      have ha : Derives .term left a := .ofUnary (.ofPower (.ofAtom hleft))
      have hb : Derives .unary right b := .ofPower (.ofAtom hright)
      have hnode : Derives .expr (left ++ .op o.op :: right) (.binary o a b) := by
        cases o with
        | add => exact .sum (.ofTerm ha) (.inl rfl) (.ofUnary hb)
        | sub => exact .sum (.ofTerm ha) (.inr rfl) (.ofUnary hb)
        | mul => exact .ofTerm (.product ha (.inl rfl) hb)
        | div => exact .ofTerm (.product ha (.inr rfl) hb)
        | pow => exact .ofTerm (.ofUnary (.ofPower (.power hleft hb)))
      exact ⟨_, .bracket List.mem_cons_self hnode⟩

theorem exists_writes {e : Expr} (hx : e.OverX) : ∃ text, Writes text e := by
  obtain ⟨row, hrow⟩ := exists_derives_atom hx
  exact ⟨_, row, .ofTerm (.ofUnary (.ofPower (.ofAtom hrow))), rfl⟩

/-- What evaluates by substitution has a degree of no more than 32 bits. -/
theorem natDegree_lt_of_evaluatesBySubstitution {cap : UInt32} {e : Expr} (hx : e.OverX)
    (heval : EvaluatesBySubstitution K cap e) (hlegal : e.Legal K cap.toNat) :
    (e.polynomial K).natDegree < 2 ^ 32 := by
  obtain ⟨text, htext⟩ := exists_writes hx
  obtain ⟨hsucceeds, hvalue⟩ := heval text htext
  obtain ⟨p, hp⟩ := hsucceeds.2 hlegal
  have hsame : formalSum p.terms = e.polynomial K := by
    apply Polynomial.funext
    intro x
    have hx' := hvalue p hp x
    rw [valueAt_of_legal hx hlegal x, eval_eq_eval_formalSum] at hx'
    exact (Option.some.inj hx').symm
  rw [← hsame]
  exact natDegree_formalSum_lt p.terms

/-- Where all parts of a tree evaluate by substitution, the degrees of its products fit. -/
theorem degreesFit_of_evaluatesBySubstitution {cap : UInt32} {e : Expr} (hx : e.OverX)
    (heval : ∀ d ∈ e.parts, EvaluatesBySubstitution K cap d) : e.DegreesFit K cap.toNat := by
  induction e with
  | number text => trivial
  | letter c => trivial
  | signed s a ih =>
      exact ih hx fun d hd => heval d (List.mem_cons_of_mem _ hd)
  | binary o a b ihA ihB =>
      have hevalA : ∀ d ∈ a.parts, EvaluatesBySubstitution K cap d := fun d hd =>
        heval d (List.mem_cons_of_mem _ (List.mem_append_left _ hd))
      have hevalB : ∀ d ∈ b.parts, EvaluatesBySubstitution K cap d := fun d hd =>
        heval d (List.mem_cons_of_mem _ (List.mem_append_right _ hd))
      refine ⟨ihA hx.1 hevalA, ihB hx.2 hevalB, ?_⟩
      rintro rfl hlegalA hlegalB
      by_cases hzero : a.polynomial K = 0 ∨ b.polynomial K = 0
      · -- no degrees are added up next to zero, and each factor is bounded by itself
        have hA := natDegree_lt_of_evaluatesBySubstitution hx.1 (hevalA a a.mem_parts_self) hlegalA
        have hB := natDegree_lt_of_evaluatesBySubstitution hx.2 (hevalB b b.mem_parts_self) hlegalB
        rcases hzero with hzero | hzero
        · rwa [hzero, natDegree_zero, zero_add]
        · rwa [hzero, natDegree_zero, add_zero]
      · obtain ⟨hA, hB⟩ := not_or.1 hzero
        rw [← natDegree_mul hA hB]
        exact natDegree_lt_of_evaluatesBySubstitution (e := .binary .mul a b) hx
          (heval _ (Expr.mem_parts_self _)) ⟨hlegalA, hlegalB, trivial⟩

end

/-- **Evaluation is substitution exactly where degrees fit.** Over the rationals every part of a
tree evaluates by substitution if and only if the degrees of the factors of each product add up to
less than `2 ^ 32`. -/
theorem evaluatesBySubstitution_iff_degreesFit (cap : UInt32) {e : Expr} (hx : e.OverX) :
    (∀ d ∈ e.parts, EvaluatesBySubstitution ℚ cap d) ↔ e.DegreesFit ℚ cap.toNat := by
  constructor
  · exact degreesFit_of_evaluatesBySubstitution hx
  · intro hfit d hd
    exact evaluatesBySubstitution_of_degreesFit cap (hx.of_mem_parts d hd) (hfit.of_mem_parts d hd)

/-- The tree of `x*(x-1)/2`. -/
def halfProduct : Expr :=
  .binary .div (.binary .mul (.letter 'x') (.binary .sub (.letter 'x') (.number ['1'])))
    (.number ['2'])

theorem halfProduct_degreesFit : halfProduct.DegreesFit ℚ 4 := by
  have hfactor : (X - C (decimalValue ℚ (1, 0))).natDegree ≤ 1 := natDegree_X_sub_C_le _
  refine ⟨⟨trivial, ⟨trivial, trivial, nofun⟩, fun _ _ _ => ?_⟩, trivial, nofun⟩
  show (X : ℚ[X]).natDegree + (X - C (decimalValue ℚ (1, 0))).natDegree < 2 ^ 32
  rw [natDegree_X]
  omega

theorem halfProduct_evaluatesBySubstitution :
    halfProduct.OverX ∧ EvaluatesBySubstitution ℚ 4 halfProduct := by
  have hx : halfProduct.OverX :=
    ⟨⟨rfl, rfl, List.all_eq_true.1 rfl, rfl⟩, List.all_eq_true.1 rfl, rfl⟩
  exact ⟨hx, (evaluatesBySubstitution_iff_degreesFit 4 hx).2 halfProduct_degreesFit _
    halfProduct.mem_parts_self⟩

/-- The tree of `x^4294967295*x`, whose degree is `2 ^ 32`. -/
def wideProduct : Expr :=
  .binary .mul (.binary .pow (.letter 'x') (.number "4294967295".toList)) (.letter 'x')

/-- A legal product whose degree has no room: there is no polynomial to substitute in. -/
theorem wideProduct_not_substitution :
    Writes "x^4294967295*x".toList wideProduct ∧ wideProduct.OverX ∧
    wideProduct.Legal ℚ (4294967295 : UInt32).toNat ∧
    (ofExpression 4294967295 "x^4294967295*x".toList :
      Except (Halt (EquationError ℚ)) (Polynomial ℚ)) = .error .overflow := by
  refine ⟨?_, ?_, ?_, by decide +kernel⟩
  · have hx : Derives .atom [.letter 'x'] (.letter 'x') := .letter (by decide)
    have hcount : Derives .atom [.number "4294967295".toList] (.number "4294967295".toList) :=
      .number (by decide) (List.all_eq_true.1 rfl)
    have hpower := Derives.power hx (.ofPower (.ofAtom hcount))
    exact ⟨_, .ofTerm (.product (.ofUnary (.ofPower hpower)) (.inl rfl) (.ofPower (.ofAtom hx))),
      by decide⟩
  · exact ⟨⟨rfl, List.all_eq_true.1 rfl, rfl⟩, rfl⟩
  · have hcount : (decimal? "4294967295".toList).map (decimalValue ℚ) =
        some ((4294967295 : ℕ) : ℚ) := by
      rw [show decimal? "4294967295".toList = some (4294967295, 0) by decide]
      simp [decimalValue]
    have hexponent : (Expr.number "4294967295".toList).polynomial ℚ = C ((4294967295 : ℕ) : ℚ) := by
      rw [Expr.polynomial, hcount]
      rfl
    refine ⟨⟨trivial, trivial, 4294967295, hexponent, fun _ => ?_⟩, trivial, trivial⟩
    show (X : ℚ[X]).natDegree * 4294967295 ≤ 4294967295
    rw [natDegree_X, one_mul]

end InkAlgebra

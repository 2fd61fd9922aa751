import Mathlib
import InkAlgebra.Proofs.Expression.Acceptance
import InkAlgebra.Proofs.Polynomial.Substitution

/-!
# Degrees of any size

Formal polynomials are values of expressions too, with the same operations and the same divisors and
exponents, and they have room for every degree. Whether a product has room is all that the two
evaluations differ in: one that does not break off comes to what the formal one comes to, or fails
where that does.

What is shown of formal values by the laws of a ring is shown that way of two texts whose
evaluations do not break off, although one of them may break off where the other does not.

§1 are formal values, §2 is agreement with them, §3 their use.
-/

open Polynomial

namespace InkAlgebra

open Exact Polynomial

variable {K : Type} [Field K] [LinearOrder K] [FloorRing K]

/-! ## §1  Formal values -/

open Classical in
/-- The arithmetic of formal polynomials as the meaning of expressions. -/
noncomputable def formalMeaning (cap : ℕ) : Meaning Unit K[X] where
  operand
    | .letter 'x' => .ok X
    | .number text => match readNumber? K text with
      | some c => .ok (C c)
      | none => .error ()
    | _ => .error ()
  unary o q := if o = .neg then -q else q
  binary o q r := match o with
    | .add => .ok (q + r)
    | .sub => .ok (q - r)
    | .mul => .ok (q * r)
    | .div => if IsDivisor r then .ok (q * C (r.coeff 0)⁻¹) else .error ()
    | _ => if IsExponentFor cap q r then .ok (q ^ ⌊r.coeff 0⌋.toNat) else .error ()
  malformed := ()

/-- The formal value of a row of tokens. -/
noncomputable def formalValue (cap : ℕ) (row : List Token) : Except Unit K[X] :=
  (toPostfix row).mapError (fun _ => ()) >>= (formalMeaning cap).run

/-- The formal difference of the sides of an equation. -/
noncomputable def formalDifference (cap : ℕ) (left right : List Char) : Except Unit K[X] := do
  let q ← formalValue cap (tokenize left)
  let r ← formalValue cap (tokenize right)
  return q - r

/-! ## §2  Agreement -/

/-- Whether an evaluation breaks off or comes to what a formal one comes to. -/
inductive Agrees : Except (Halt (EquationError K)) (Polynomial K) → Except Unit K[X] → Prop
  | ok {p : Polynomial K} {q : K[X]} : Denotes p q → Agrees (.ok p) (.ok q)
  | failed {e : EquationError K} {u : Unit} : Agrees (.error (.failed e)) (.error u)
  | overflow (y : Except Unit K[X]) : Agrees (.error .overflow) y

omit [LinearOrder K] [FloorRing K] in
open Classical in
theorem Polynomial.Yields.agrees {x : Except (Halt (EquationError K)) (Polynomial K)} {legal : Prop}
    {q : K[X]} (h : Yields x legal q) : Agrees x (if legal then .ok q else .error ()) := by
  cases x with
  | ok p =>
      rw [if_pos h.1]
      exact .ok h.2
  | error e =>
      rw [if_neg h]
      cases e with
      | overflow => exact .overflow _
      | failed e => exact .failed

omit [LinearOrder K] [FloorRing K] in
/-- Two steps agree if the first do, and the second do on what the first come to. -/
theorem Agrees.bind {x : Except (Halt (EquationError K)) (Polynomial K)} {y : Except Unit K[X]}
    (h : Agrees x y) {f : Polynomial K → Except (Halt (EquationError K)) (Polynomial K)}
    {g : K[X] → Except Unit K[X]} (hstep : ∀ {p q}, Denotes p q → Agrees (f p) (g q)) :
    Agrees (x >>= f) (y >>= g) := by
  cases h with
  | ok hpq => exact hstep hpq
  | failed => exact .failed
  | overflow y => exact .overflow _

theorem agrees_operand (cap : UInt32) (t : Token) :
    Agrees ((meaning (α := K) cap).operand t) ((formalMeaning cap.toNat).operand t) := by
  cases t with
  | letter c =>
      by_cases hc : c = 'x'
      · subst hc
        exact .ok denotes_indeterminate
      · simp only [meaning, formalMeaning, ofOperand?]
        split <;> simp_all
        exact .failed
  | number text =>
      simp only [meaning, formalMeaning, ofOperand?]
      cases readNumber? K text with
      | none => exact .failed
      | some c => exact .ok (denotes_constant c)
  | op _ | opening _ | closing _ | unknown _ => exact .failed

variable [IsStrictOrderedRing K] {p p' : Polynomial K} {q q' : K[X]}

theorem agrees_binary (cap : UInt32) (o : Op) (h : Denotes p q) (h' : Denotes p' q') :
    Agrees ((meaning cap).binary o p p') ((formalMeaning cap.toNat).binary o q q') := by
  cases o with
  | add => exact .ok (h.plus h')
  | sub => exact .ok (h.minus h')
  | mul =>
      show Agrees (p.multiply p') (.ok (q * q'))
      cases hr : p.multiply p' with
      | ok r => exact .ok (h.multiply h' hr)
      | error e =>
          rw [(multiply_eq_error_iff.1 hr).1]
          exact .overflow _
  | div => exact ((h.divide h').mapError _).agrees
  | pow | neg | pos => exact (h.power h' cap).agrees

/-- **Runs agree** on stacks that agree. -/
theorem agrees_runFrom (cap : UInt32) {stack : List (Polynomial K)} {stack' : List K[X]}
    (hstack : List.Forall₂ Denotes stack stack') (row : List Token) :
    Agrees ((meaning cap).runFrom stack row) ((formalMeaning cap.toNat).runFrom stack' row) := by
  induction row generalizing stack stack' with
  | nil =>
      rcases hstack with _ | ⟨hv, _ | _⟩
      · exact .failed
      · exact .ok hv
      · exact .failed
  | cons t rest ih =>
      by_cases ht : ∃ o, t = .op o
      · obtain ⟨o, rfl⟩ := ht
        cases ho : o.isUnary with
        | true =>
            rcases hstack with _ | ⟨ha, hbelow⟩
            · simp only [Meaning.runFrom, ho, if_true]
              exact .failed
            · simp only [Meaning.runFrom, ho, if_true]
              refine ih (.cons ?_ hbelow)
              simp only [meaning, formalMeaning]
              split
              · exact ha.neg
              · exact ha
        | false =>
            rcases hstack with _ | ⟨hb, _ | ⟨ha, hbelow⟩⟩
            · simp only [Meaning.runFrom, ho, Bool.false_eq_true, if_false]
              exact .failed
            · simp only [Meaning.runFrom, ho, Bool.false_eq_true, if_false]
              exact .failed
            · simp only [Meaning.runFrom, ho, Bool.false_eq_true, if_false]
              exact (agrees_binary cap o ha hb).bind fun hr => ih (.cons hr hbelow)
      · have hnot : ∀ o, t ≠ .op o := fun o heq => ht ⟨o, heq⟩
        rw [Meaning.runFrom_operand hnot, Meaning.runFrom_operand hnot]
        exact (agrees_operand cap t).bind fun hv => ih (.cons hv hstack)

theorem agrees_ofExpression (cap : UInt32) (text : List Char) :
    Agrees (ofExpression (α := K) cap text) (formalValue cap.toNat (tokenize text)) := by
  unfold ofExpression infixToPostfix formalValue
  cases toPostfix (tokenize text) with
  | error e => exact .failed
  | ok post => exact agrees_runFrom cap .nil post

/-! ## §3  Texts of one value -/

/-- Whether two evaluations come to the same or both fail, unless one of them breaks off. -/
def SameUnlessOverflow {α : Type} (x y : Except (Halt (EquationError α)) (Polynomial α)) : Prop :=
  x ≠ .error .overflow → y ≠ .error .overflow → x.toOption = y.toOption

omit [FloorRing K] [IsStrictOrderedRing K] in
/-- Evaluations that agree with one and the same are the same. -/
theorem Agrees.sameUnlessOverflow {x y : Except (Halt (EquationError K)) (Polynomial K)}
    {z : Except Unit K[X]} (hx : Agrees x z) (hy : Agrees y z) : SameUnlessOverflow x y := by
  intro hxOverflow hyOverflow
  cases hx with
  | overflow _ => exact absurd rfl hxOverflow
  | ok hp =>
      cases hy with
      | overflow _ => exact absurd rfl hyOverflow
      | ok hq => exact congrArg some (hp.eq hq)
  | failed =>
      cases hy with
      | overflow _ => exact absurd rfl hyOverflow
      | failed => rfl

end InkAlgebra

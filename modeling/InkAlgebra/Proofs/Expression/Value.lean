import Mathlib
import InkAlgebra.Proofs.Expression.Grammar
import InkAlgebra.Proofs.Number.Exact

/-!
# Values of trees

What a tree is worth when numbers stand for its letters, by the usual arithmetic and with no parser,
machine or polynomial in between. The value may be missing: a text is no decimal, a divisor is zero,
an exponent is not whole, or zero is raised to a negative power.

§1 is the value, §2 trees that differ in nothing but the spelling of their numbers, which have the
same values.
-/

namespace InkAlgebra

/-! ## §1  Values -/

section

variable {K : Type} [Field K] [LinearOrder K] [FloorRing K]

/-- A power, which is asked for whole exponents only; everything to the power zero is one. -/
def powerValue (a b : K) : Option K :=
  if (⌊b⌋ : K) = b ∧ (0 ≤ b ∨ a ≠ 0) then some (a ^ ⌊b⌋) else none

def Operation.value : Operation → K → K → Option K
  | add, a, b => some (a + b)
  | sub, a, b => some (a - b)
  | mul, a, b => some (a * b)
  | div, a, b => if b = 0 then none else some (a / b)
  | pow, a, b => powerValue a b

def Sign.value : Sign → K → K
  | plus, a => a
  | minus, a => -a

/-- The value of a tree, given numbers for its letters. -/
def Expr.valueAt (assign : Char → K) : Expr → Option K
  | number text => (decimal? text).map (decimalValue K)
  | letter c => some (assign c)
  | signed s a => (a.valueAt assign).map s.value
  | binary o a b => (a.valueAt assign).bind fun u => (b.valueAt assign).bind fun v => o.value u v

end

/-! ## §2  Spellings of numbers -/

namespace Expr

/-- Whether two trees are the same up to numbers that are spelled differently and say the same. -/
inductive Alike : Expr → Expr → Prop
  | number {s t : List Char} : decimal? s = decimal? t → Alike (.number s) (.number t)
  | letter (c : Char) : Alike (.letter c) (.letter c)
  | signed {a b : Expr} (s : Sign) : Alike a b → Alike (.signed s a) (.signed s b)
  | binary {a b a' b' : Expr} (o : Operation) :
      Alike a a' → Alike b b' → Alike (.binary o a b) (.binary o a' b')

namespace Alike

theorem refl (e : Expr) : Alike e e := by
  induction e with
  | number text => exact .number rfl
  | letter c => exact .letter c
  | signed s a ih => exact .signed s ih
  | binary o a b ihA ihB => exact .binary o ihA ihB

/-- Trees that are alike mean the same. -/
theorem valueAt_eq {d e : Expr} (h : Alike d e) {K : Type} [Field K] [LinearOrder K] [FloorRing K]
    (assign : Char → K) : d.valueAt assign = e.valueAt assign := by
  induction h with
  | number hst => simp only [valueAt, hst]
  | letter c => rfl
  | signed s _ ih => simp only [valueAt, ih]
  | binary o _ _ ihA ihB => simp only [valueAt, ihA, ihB]

theorem length_postorder {d e : Expr} (h : Alike d e) :
    d.postorder.length = e.postorder.length := by
  induction h with
  | number _ => rfl
  | letter c => rfl
  | signed s _ ih => simp [postorder, ih]
  | binary o _ _ ihA ihB => simp [postorder, ihA, ihB]

/-- A tree is not alike to a side of itself. -/
theorem right_ne {o : Operation} {a b : Expr} : ¬ Alike b (.binary o a b) := by
  intro h
  have := h.length_postorder
  simp only [postorder, List.length_append, List.length_singleton] at this
  omega

end Alike

end Expr

end InkAlgebra

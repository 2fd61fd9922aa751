import InkAlgebra.Expression.Machine
import InkAlgebra.Proofs.Expression.Grammar

/-!
# Running a postorder

The stack machine on the postorder of a tree does what one recursion over the tree does: the
operands of an operator are worked out from left to right and the operator is applied to them, and
the first failure is the failure of the whole. The stack below is never looked at, so that the
statement is about any stack and any row behind the postorder.

One use is in the logic itself. Trees are a meaning like any other, and running a postorder for the
tree gives the tree back, so that no two trees have the same postorder.
-/

namespace InkAlgebra

namespace Meaning

variable {ε β : Type}

def value (m : Meaning ε β) : Expr → Except ε β
  | .number text => m.operand (.number text)
  | .letter c => m.operand (.letter c)
  | .signed s a => do
    let u ← m.value a
    return m.unary s.op u
  | .binary o a b => do
    let u ← m.value a
    let v ← m.value b
    m.binary o.op u v

/-- **The machine computes the value.** The postorder of a tree, in front of any row and on any
stack, puts the value of the tree on the stack. -/
theorem runFrom_postorder (m : Meaning ε β) (e : Expr) : ∀ (stack : List β) (rest : List Token),
    m.runFrom stack (e.postorder ++ rest) = (m.value e).bind fun v =>
        m.runFrom (v :: stack) rest := by
  induction e with
  | number text =>
      intro stack rest
      simp [Expr.postorder, value, runFrom, bind]
  | letter c =>
      intro stack rest
      simp [Expr.postorder, value, runFrom, bind]
  | signed s a ih =>
      intro stack rest
      rw [Expr.postorder, List.append_assoc, ih]
      cases hu : m.value a with
      | error x => simp [value, hu, bind, Except.bind]
      | ok u => simp [value, hu, bind, Except.bind, pure, Except.pure, runFrom]
  | binary o a b ihA ihB =>
      intro stack rest
      rw [Expr.postorder, List.append_assoc, List.append_assoc, ihA]
      cases hu : m.value a with
      | error x => simp [value, hu, bind, Except.bind]
      | ok u =>
          -- the value of the left side waits on the stack while the right side runs
          simp only [Except.bind]
          rw [ihB]
          cases hv : m.value b with
          | error x => simp [value, hu, hv, bind, Except.bind]
          | ok v => simp [value, hu, hv, bind, Except.bind, runFrom]

theorem run_postorder (m : Meaning ε β) (e : Expr) : m.run e.postorder = m.value e := by
  have h := m.runFrom_postorder e [] []
  rw [List.append_nil] at h
  unfold run
  rw [h]
  cases m.value e <;> rfl

end Meaning

namespace Expr

/-- The operation of an operator; a sign is none. -/
def operationOf? : Op → Option Operation
  | .add => some .add
  | .sub => some .sub
  | .mul => some .mul
  | .div => some .div
  | .pow => some .pow
  | .neg | .pos => none

/-- Trees as the meaning of expressions. -/
def treeMeaning : Meaning Unit Expr where
  operand
    | .number text => .ok (number text)
    | .letter c => .ok (letter c)
    | _ => .error ()
  unary o a := signed (if o = .neg then .minus else .plus) a
  binary o a b := match operationOf? o with
    | some operation => .ok (binary operation a b)
    | none => .error ()
  malformed := ()

theorem value_treeMeaning (e : Expr) : treeMeaning.value e = .ok e := by
  induction e with
  | number text => rfl
  | letter c => rfl
  | signed s a ih =>
      simp only [Meaning.value, ih]
      cases s <;> rfl
  | binary o a b ihA ihB =>
      simp only [Meaning.value, ihA, ihB]
      cases o <;> rfl

theorem postorder_injective {d e : Expr} (h : d.postorder = e.postorder) : d = e := by
  have hd := treeMeaning.run_postorder d
  have he := treeMeaning.run_postorder e
  rw [value_treeMeaning] at hd he
  rw [h, he] at hd
  exact (Except.ok.inj hd).symm

end Expr

end InkAlgebra

import InkAlgebra.Equation
import InkAlgebra.Expression.Canonical
import InkAlgebra.Layout.Assembly
import InkAlgebra.Typeset

/-!
# From symbols or text to solutions

The whole way: symbols are assembled into an expression, the expression is brought into canonical
form, typeset and solved. No failure ends it: what goes wrong becomes a solution that is not valid
and says why, with as much of the way as was gone. Only a run that breaks off has no solution.

The typesetter is a parameter, and its failure costs the typeset text only.
-/

namespace InkAlgebra

/-- One entry of the reported roots: a number, or a remark in place of numbers. -/
inductive RootEntry (α : Type) where
  | number (x : α)
  | remark (text : String)
deriving BEq, Repr

structure Solution (α : Type) where
  valid : Bool
  /-- Why the equation was not solved; empty if it was. -/
  message : String
  expression : String
  latex : String
  roots : List (RootEntry α)
  unknown : Option Char
deriving BEq, Repr

/-- Something that typesets a canonical expression, or fails to. -/
abbrev Typesetter := List Char → Except SyntaxError (List Char)

namespace RootEntry

variable {α : Type}

def noRoots : RootEntry α := remark "No roots"

def infiniteRoots : RootEntry α := remark "Infinite roots"

def ofRoots : Roots α → List (RootEntry α)
  | .infinite => [infiniteRoots]
  | .finite [] => [noRoots]
  | .finite roots => roots.map number

end RootEntry

variable {α : Type} [Coefficient α]

/-- The outcome of solving a canonical expression: its unknown, once it is known to have at most
one, and the roots. -/
def solveCanonical (s : SolverSettings α) (expression : List Char) :
    Option Char × Except (Halt (EquationError α)) (Roots α) :=
  match inOneUnknown expression with
  | .error cause => (none, .error (.unsolvable cause))
  | .ok (inX, unknown) => (unknown, solveEquation s inX)

/-- The solution of a typed or assembled expression, unless the run breaks off. `write` writes the
numbers in messages. -/
def solveExpression (write : α → List Char) (s : SolverSettings α) (typesetter : Typesetter)
    (raw : List Char) : Option (Solution α) :=
  let expression := canonicalForm raw
  let latex := match typesetter expression with
    | .ok text => String.ofList text
    | .error _ => ""
  let (unknown, outcome) := solveCanonical s expression
  let solution (valid : Bool) (message : String) (roots : List (RootEntry α)) : Solution α :=
    { valid, message, roots, unknown, latex, expression := String.ofList expression }
  match outcome with
  | .ok roots => some (solution true "" (RootEntry.ofRoots roots))
  | .error (.failed e) => some (solution false (e.userMessage write) [])
  | .error .overflow => none

/-- The solution of a page of symbols, unless the run breaks off. A page that nests too deep has no
expression. -/
def solvePage {κ : Type} [Coordinate κ] (write : α → List Char) (p : Page κ)
    (s : SolverSettings α) (typesetter : Typesetter) (detections : List (Detection κ)) :
    Option (Solution α) :=
  match assemble p detections with
  | .ok raw => solveExpression write s typesetter raw
  | .error e =>
    some
      { valid := false
        message := (EquationError.tooComplex e : EquationError α).userMessage write
        expression := ""
        latex := ""
        roots := []
        unknown := none }

/-! ## Cases -/

/-- Whether it is valid or not, a solution shows the canonical form and what is typeset of it. -/
theorem texts_of_solveExpression {write : α → List Char} {s : SolverSettings α}
    {typesetter : Typesetter} {raw : List Char} {solution : Solution α}
    (h : solveExpression write s typesetter raw = some solution) :
    solution.expression = String.ofList (canonicalForm raw) ∧
      solution.latex = match typesetter (canonicalForm raw) with
        | .ok text => String.ofList text
        | .error _ => "" := by
  unfold solveExpression at h
  dsimp only at h
  split at h
  · cases h
    exact ⟨rfl, rfl⟩
  · cases h
    exact ⟨rfl, rfl⟩
  · cases h

/-- A valid solution has roots to report. -/
theorem exists_roots_of_valid {write : α → List Char} {s : SolverSettings α}
    {typesetter : Typesetter} {raw : List Char} {solution : Solution α}
    (h : solveExpression write s typesetter raw = some solution) (hvalid : solution.valid = true) :
    ∃ roots, (solveCanonical s (canonicalForm raw)).2 = .ok roots := by
  unfold solveExpression at h
  dsimp only at h
  split at h
  · rename_i roots hroots
    exact ⟨roots, hroots⟩
  · cases h
    cases hvalid
  · cases h

end InkAlgebra

import InkAlgebra.Layout.Fraction
import InkAlgebra.Layout.Script

/-!
# Assembling a formula

A row of leaves becomes text in three steps: fractions are put in place of the leaves they cover,
then each base takes up its script, then the texts are joined. The sides of a fraction and a script
are rows of their own and are assembled the same way, one level further down; the number of levels
left is what the recursion runs on.
-/

namespace InkAlgebra

variable {κ : Type} [Coordinate κ]

namespace Page

def scriptOperators : List Char := ['+', '*', '/', '=', '-']

/-- The text of a base in front of its script. -/
def baseText : Node κ → List Char
  | .fraction c => '(' :: c.text ++ [')']
  | n => n.text

/-- The exponent of a base whose script is `first` and the nodes in `more`. -/
def assembleExponent (inner : List (Leaf κ) → Except LimitPassed (List Char))
    (leaves : List (Leaf κ)) (base first : Node κ) (more : List (Node κ)) :
    Except LimitPassed (Composite κ) := do
  let last := more.getLast?.getD first
  let script ← inner ((first.span.join last.span).slice leaves)
  return {
    text := baseText base ++ '^' :: bracketedIfAny scriptOperators script
    box := (first :: more).foldl (fun box n => box.union n.box) base.box
    span := base.span.join last.span }

/-- Whether an operator right behind a base starts a new term: what follows it is not raised. -/
def operatorStartsTerm (p : Page κ) (base next : Node κ) (after : Option (Node κ)) : Bool :=
  next.isOperator && after.any fun a => !p.isRaised base a

/-- A node that carries no script; a fraction gets the brackets it needs between its neighbours. -/
def standAlone (leaves : List (Leaf κ)) (n : Node κ) (next : Option (Node κ)) : Node κ :=
  match n with
  | .fraction f =>
    let left : List Char := if f.span.start = 0 then [] else
      match leaves[f.span.start - 1]? with
      | some leaf => leaf.text
      | none => []
    let right := match next with
      | some m => m.text
      | none => []
    if Label.bracketsFraction left right then .fraction { f with text := '(' :: f.text ++ [')'] }
    else n
  | n => n

/-- The row with every base and its script made one node. `levels` are left for scripts. -/
def attachScripts (p : Page κ) (inner : List (Leaf κ) → Except LimitPassed (List Char))
    (levels : Nat) (leaves : List (Leaf κ)) : List (Node κ) → Except LimitPassed (List (Node κ))
  | [] => .ok []
  | [n] => .ok [standAlone leaves n none]
  | n :: next :: rest =>
    if p.isExponent n next && !p.operatorStartsTerm n next rest.head? then do
      let length ← p.scriptLength levels n next rest
      let exponent ← assembleExponent inner leaves n next (rest.take length)
      return .exponent exponent :: (← attachScripts p inner levels leaves (rest.drop length))
    else do
      return standAlone leaves n (some next) ::
        (← attachScripts p inner levels leaves (next :: rest))
termination_by nodes => nodes.length

/-- The joined texts of a row. Behind an exponent a point marks the product with what follows,
unless that is an operator. -/
def joinTexts : List (Node κ) → List Char
  | [] => []
  | n :: rest =>
    let mark : List Char := match n, rest with
      | .exponent _, .plain _ leaf :: _ => if Label.isOperator leaf.text then [] else ['.']
      | .exponent _, _ :: _ => ['.']
      | _, _ => []
    n.text ++ mark ++ joinTexts rest

/-- Leaves from left to right, by the left edge of their ink; equal edges keep their order. -/
def sortLeaves (leaves : List (Leaf κ)) : List (Leaf κ) :=
  leaves.mergeSort fun a b => Coordinate.precedes a.ink.left b.ink.left

theorem sortLeaves_perm (leaves : List (Leaf κ)) : (sortLeaves leaves).Perm leaves :=
  List.mergeSort_perm ..

/-- The text of a row of leaves, with so many levels left, this one included. -/
def assembleRow (p : Page κ) : (levels : Nat) → List (Leaf κ) → Except LimitPassed (List Char)
  | 0, _ => .error p.tooDeep
  | levels + 1, row => do
    let leaves := sortLeaves row
    let fractions ← findFractions (p.assembleRow levels) leaves
    let nodes ← p.attachScripts (p.assembleRow levels) levels leaves (splice 0 leaves fractions)
    return joinTexts nodes

end Page

/-- The formula of a page: its detections as one expression. -/
def assemble (p : Page κ) (detections : List (Detection κ)) : Except LimitPassed (List Char) :=
  p.assembleRow (p.geometry.maxDepth + 1) (detections.map (.ofDetection p.geometry))

end InkAlgebra

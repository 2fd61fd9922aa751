import InkAlgebra.Expression.Machine

/-!
# Typeset formulas

An expression as display LaTeX. The formula is rendered from the tree of the expression, so brackets
appear where the tree needs them and not where they were typed. A sign `+` leaves no trace.

Products are written side by side; `\times` comes between factors only where the right one starts
with a digit, a point or a fraction and would run into the left one.
-/

namespace InkAlgebra

/-- The tree of an expression; operands are kept as written. -/
inductive Formula where
  | atom (text : List Char)
  | neg (a : Formula)
  | binary (o : Op) (a b : Formula)
deriving DecidableEq, Repr

namespace Formula

def meaning : Meaning SyntaxError Formula where
  operand t := .ok (atom t.name)
  unary o a := if o = .neg then neg a else a
  binary o a b := .ok (binary o a b)
  malformed := .malformed

def ofExpression (expression : List Char) : Except SyntaxError Formula := do
  meaning.run (← infixToPostfix expression)

def isAtom : Formula → Bool
  | atom _ => true
  | _ => false

def isNeg : Formula → Bool
  | neg _ => true
  | _ => false

def isSum : Formula → Bool
  | binary .add _ _ | binary .sub _ _ => true
  | _ => false

def bracketed (text : List Char) : List Char := "\\left(".toList ++ text ++ "\\right)".toList

def bracketedIf (wrap : Bool) (text : List Char) : List Char :=
  if wrap then bracketed text else text

def braced (text : List Char) : List Char := '\x7b' :: text ++ ['\x7d']

/-- Whether a right factor would run into the left one. -/
def needsTimes (right : List Char) : Bool :=
  right.head?.any (fun c => c.isDigit || c = '.') || "\\frac".toList.isPrefixOf right

def render : Formula → List Char
  | atom text => text
  | neg a => '-' :: bracketedIf (a.isSum || a.isNeg) a.render
  | binary .add a b => a.render ++ '+' :: bracketedIf b.isNeg b.render
  | binary .sub a b => a.render ++ '-' :: bracketedIf (b.isSum || b.isNeg) b.render
  | binary .mul a b =>
    let left := bracketedIf a.isSum a.render
    let right := bracketedIf (b.isSum || b.isNeg) b.render
    left ++ (if needsTimes right then "\\times".toList else []) ++ right
  | binary .div a b => "\\frac".toList ++ braced a.render ++ braced b.render
  | binary _ a b =>
    let power := b.render
    bracketedIf (!a.isAtom) a.render ++ '^' :: (if 1 < power.length then braced power else power)

end Formula

/-- The parts of an equation between all its `=`. -/
def equationSides : List Char → List (List Char)
  | [] => [[]]
  | c :: rest =>
    match equationSides rest with
    | side :: sides => if c = '=' then [] :: side :: sides else (c :: side) :: sides
    | [] => []

/-- The LaTeX text of an equation: its sides, joined by `=`. -/
def typeset (equation : List Char) : Except SyntaxError (List Char) := do
  let sides ← (equationSides equation).mapM fun side => return (← Formula.ofExpression side).render
  return "$$".toList ++ List.intercalate ['='] sides ++ "$$".toList

end InkAlgebra

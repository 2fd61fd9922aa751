import InkAlgebra.Error
import InkAlgebra.Expression.Token

/-!
# Postfix order

From infix to postfix with one stack of what is still open: operators that wait for their right
operand and brackets that wait to be closed. Operands go out at once. An operator first lets go of
the operators before it that bind at least as tightly (strictly tighter, if it groups to the right);
a closing bracket lets go of everything up to its opening bracket, and both brackets vanish.

Nothing here asks whether the row makes sense as an expression: that is seen when the postfix is run
(`Expression.Machine`).
-/

namespace InkAlgebra

/-- What is open in the row read so far. -/
inductive Pending where
  | op (o : Op)
  | bracket (c : Char)
deriving DecidableEq, Repr

namespace Pending

/-- Whether an operator that is waiting comes before one that is being read. -/
def yieldsTo (waiting next : Op) : Bool :=
  next.precedence < waiting.precedence ||
    (next.precedence == waiting.precedence && !next.isRightAssociative)

/-- The operators that go out before the next one is put on the stack, and the stack they leave. -/
def release (next : Op) : List Pending → List Token × List Pending
  | op o :: stack =>
    if yieldsTo o next then
      let (out, rest) := release next stack
      (.op o :: out, rest)
    else ([], op o :: stack)
  | stack => ([], stack)

/-- The operators that go out when a bracket closes, and the stack below its opening bracket. -/
def close? (bracketChar : Char) : List Pending → Option (List Token × List Pending)
  | op o :: stack => (close? bracketChar stack).map fun (out, rest) => (.op o :: out, rest)
  | bracket c :: stack => if c = openingOf bracketChar then some ([], stack) else none
  | [] => none

/-- What goes out at the end of the row, where no bracket may be left. -/
def finish : List Pending → Except SyntaxError (List Token)
  | [] => .ok []
  | op o :: stack => (finish stack).map (.op o :: ·)
  | bracket _ :: _ => .error .malformed

end Pending

/-- The postfix of a row of tokens, on top of what is open. -/
def toPostfixFrom (stack : List Pending) : List Token → Except SyntaxError (List Token)
  | [] => Pending.finish stack
  | .opening c :: rest => toPostfixFrom (.bracket c :: stack) rest
  | .closing c :: rest =>
    match Pending.close? c stack with
    | some (out, below) => (toPostfixFrom below rest).map (out ++ ·)
    | none => .error (.unmatchedClose c)
  | .op o :: rest =>
    let (out, below) := Pending.release o stack
    (toPostfixFrom (.op o :: below) rest).map (out ++ ·)
  | .unknown c :: _ => .error (.unsupported [c])
  | t :: rest => (toPostfixFrom stack rest).map (t :: ·)

def toPostfix (tokens : List Token) : Except SyntaxError (List Token) := toPostfixFrom [] tokens

def infixToPostfix (expression : List Char) : Except SyntaxError (List Token) :=
  toPostfix (tokenize expression)

end InkAlgebra

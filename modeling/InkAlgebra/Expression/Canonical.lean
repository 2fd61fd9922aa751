import InkAlgebra.Expression.Token

/-!
# Canonical expressions

What is recognised on paper becomes an expression that can be parsed: products that are written by
standing side by side get their `*`, the marks of handwriting become the marks of expressions, and
whole numbers lose leading zeros. The three steps run in this order, because the first looks at the
marks as they were written and the last at the digits as they end up.
-/

namespace InkAlgebra

def isOpeningChar (c : Char) : Bool := c = '(' || c = '[' || c = '\x7b'

def isClosingChar (c : Char) : Bool := c = ')' || c = ']' || c = '\x7d'

/-- Whether a character can be, or be part of, an operand. -/
def isOperandChar (c : Char) : Bool := c.isDigit || isLetter c

/-- Whether two characters side by side mean a product: a digit before a letter, a letter before an
operand, an operand or a closing bracket before an opening one, a closing bracket before an
operand. -/
def needsProduct (prev cur : Char) : Bool :=
  (prev.isDigit && isLetter cur) || (isLetter prev && isOperandChar cur) ||
    ((isOperandChar prev || isClosingChar prev) && isOpeningChar cur) ||
    (isClosingChar prev && isOperandChar cur)

/-- The mark of expressions for a mark of handwriting: a point multiplies, a comma starts decimals,
a colon divides, and all brackets are round. -/
def canonicalMark : Char → Char
  | '.' => '*'
  | ',' => '.'
  | '\x7b' | '[' => '('
  | '\x7d' | ']' => ')'
  | ':' => '/'
  | c => c

/-- Canonical marks with every product written out, after a given character. -/
def writeProducts (prev : Option Char) : List Char → List Char
  | [] => []
  | c :: rest =>
    let marked := canonicalMark c :: writeProducts (some c) rest
    if prev.any (needsProduct · c) then '*' :: marked else marked

/-- Where leading zeros are being dropped. -/
inductive ZeroState where
  | outside
  /-- In the zeros at the front of a run. -/
  | leading
  /-- Where digits are kept: the front of the run is over, or it is not a run of whole digits. -/
  | kept
  | behindPoint
deriving DecidableEq, Repr

def ZeroState.after (c : Char) : ZeroState :=
  if c.isDigit then .kept else if c = '.' then .behindPoint else .outside

/-- Drops the zeros at the front of each run of digits; a run of zeros only keeps one, which is
written when the run ends. Behind a point one character is kept whatever it is, and a run of digits
right behind that character is kept with it. -/
def stripZerosFrom : ZeroState → List Char → List Char
  | .leading, [] => ['0']
  | _, [] => []
  | .behindPoint, c :: rest => c :: stripZerosFrom (if c = '.' then .behindPoint else .kept) rest
  | .kept, c :: rest => c :: stripZerosFrom (.after c) rest
  | .outside, c :: rest =>
    if c = '0' then stripZerosFrom .leading rest else c :: stripZerosFrom (.after c) rest
  | .leading, c :: rest =>
    if c = '0' then stripZerosFrom .leading rest
    else if c.isDigit then c :: stripZerosFrom .kept rest
    else '0' :: c :: stripZerosFrom (.after c) rest

def stripLeadingZeros (text : List Char) : List Char := stripZerosFrom .outside text

def canonicalForm (text : List Char) : List Char := stripLeadingZeros (writeProducts none text)

end InkAlgebra

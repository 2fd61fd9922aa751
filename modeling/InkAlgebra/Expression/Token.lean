import InkAlgebra.Text.Letter

/-!
# Tokens of an expression

A typed expression is a row of tokens: numbers as written, single letters, operators, brackets of
three kinds, and characters that mean nothing. Splitting loses no character: the texts of the tokens
put together are the expression again. What a number is worth is asked only when it is evaluated,
so any run of digits and points is one number token.

A `+` or `-` is a sign and not an operation where no operand can have ended: at the start, after an
opening bracket and after another operator.
-/

namespace InkAlgebra

inductive Op where
  | add
  | sub
  | mul
  | div
  | pow
  | neg
  | pos
deriving DecidableEq, Repr

namespace Op

def all : List Op := [add, sub, mul, div, pow, neg, pos]

def ofChar? : Char → Option Op
  | '+' => some add
  | '-' => some sub
  | '*' => some mul
  | '/' => some div
  | '^' => some pow
  | _ => none

def precedence : Op → Nat
  | add | sub => 0
  | mul | div => 2
  | pow | neg | pos => 3

def isRightAssociative : Op → Bool
  | pow | neg | pos => true
  | _ => false

def isUnary : Op → Bool
  | neg | pos => true
  | _ => false

/-- An operator's name; signs have names that tell them from sums and differences. -/
def symbol : Op → String
  | add => "+"
  | sub => "-"
  | mul => "*"
  | div => "/"
  | pow => "^"
  | neg => "neg"
  | pos => "pos"

/-- The operator where a sign is expected instead of an operation. -/
def asSign : Op → Op
  | sub => neg
  | add => pos
  | o => o

end Op

inductive Token where
  | number (text : List Char)
  | letter (c : Char)
  | op (o : Op)
  | opening (c : Char)
  | closing (c : Char)
  | unknown (c : Char)
deriving DecidableEq, Repr

/-- The opening bracket that a closing one asks for; what is neither round nor square closes a
brace. -/
def openingOf : Char → Char
  | ')' => '('
  | ']' => '['
  | _ => '\x7b'

def isNumeric (c : Char) : Bool := c.isDigit || c = '.'

namespace Token

/-- A token's name in messages: its text, and for an operator its symbol. -/
def name : Token → List Char
  | number text => text
  | op o => o.symbol.toList
  | letter c | opening c | closing c | unknown c => [c]

def source : Token → List Char
  | op .neg => ['-']
  | op .pos => ['+']
  | t => t.name

/-- Whether a sign, and no operation, is read right after this token. -/
def invitesSign : Token → Bool
  | opening _ | op _ => true
  | _ => false

/-- The token of a character that is not numeric. -/
def ofChar (signExpected : Bool) (c : Char) : Token :=
  if c = '(' || c = '[' || c = '\x7b' then opening c
  else if c = ')' || c = ']' || c = '\x7d' then closing c
  else if isLetter c then letter c
  else match Op.ofChar? c with
    | some o => op (if signExpected then o.asSign else o)
    | none => unknown c

/-- A numeric character in front of a row: it joins a number that starts the row. -/
def consNumeric (c : Char) : List Token → List Token
  | number text :: rest => number (c :: text) :: rest
  | rest => number [c] :: rest

/-- A numeric character joined to a row is the first character of the row's text. -/
theorem flatMap_source_consNumeric (c : Char) (tokens : List Token) :
    (consNumeric c tokens).flatMap source = c :: tokens.flatMap source := by
  cases tokens with
  | nil => rfl
  | cons t rest => cases t <;> rfl

end Token

/-- The tokens of a text that follows a given place. -/
def tokenizeFrom (signExpected : Bool) : List Char → List Token
  | [] => []
  | c :: rest =>
    if isNumeric c then Token.consNumeric c (tokenizeFrom false rest)
    else
      let t := Token.ofChar signExpected c
      t :: tokenizeFrom t.invitesSign rest

def tokenize (expression : List Char) : List Token := tokenizeFrom true expression

end InkAlgebra

import InkAlgebra.Text.Letter

/-!
# Classes of labels

What a recognised label can be in a formula. A label is mostly one character; one of several
characters stands for a piece that is already assembled, and can start and carry a script.
-/

namespace InkAlgebra

/-- What a symbol was recognised as. -/
abbrev Label := List Char

namespace Label

def isOperator (label : Label) : Bool :=
  label ∈ [['+'], ['*'], ['/'], ['='], ['-'], ['^'], [':']]

def isDecimalSeparator (label : Label) : Bool := label ∈ [[','], ['.']]

def isOpeningBracket (label : Label) : Bool := label ∈ [['('], ['['], ['\x7b']]

def isClosingBracket (label : Label) : Bool := label ∈ [[')'], [']'], ['\x7d']]

/-- The one label that is treated as hanging below the line. -/
def hasDescender (label : Label) : Bool := label = ['y']

/-- Of single characters, digits, letters, signs and opening brackets start a script. -/
def canStartScript : Label → Bool
  | [] => false
  | [c] => c.isAlphanum || c = '+' || c = '-' || isOpeningBracket [c]
  | _ => true

/-- Of single characters, digits, letters and closing brackets carry a script. -/
def canCarryScript : Label → Bool
  | [] => false
  | [c] => c.isAlphanum || isClosingBracket [c]
  | _ => true

/-- Whether a fraction between two labels needs brackets to stay one operand: before letters, an
opening bracket or an operator that binds as tightly, and behind a closing bracket or a division.
Either label is empty where there is none. -/
def bracketsFraction (left right : Label) : Bool :=
  let rightBinds := (!right.isEmpty && right.all isLetter) || right ∈ [['*'], [':'], ['/']] ||
    isOpeningBracket right
  let leftBinds := isClosingBracket left || left ∈ [[':'], ['/']]
  rightBinds || leftBinds

end Label

end InkAlgebra

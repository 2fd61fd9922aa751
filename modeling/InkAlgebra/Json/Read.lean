import InkAlgebra.Json.Basic

/-!
# Reading JSON

The grammar of JSON, without extensions: blanks are space, tab, line feed and carriage return; a
number has no leading zeros and digits on both sides of its point; a string holds no control
characters, and its escapes are a known letter or `u` with four hexadecimal digits. Nothing but
blanks may follow the value.
-/

namespace InkAlgebra.Json

def isBlank (c : Char) : Bool := c = ' ' || c = '\n' || c = '\t' || c = '\r'

def skipBlanks (text : List Char) : List Char := text.dropWhile isBlank

/-- The rest of a string up to its closing quote, as written, and what follows. -/
def readString? : List Char → Option (List Char × List Char)
  | '"' :: rest => some ([], rest)
  | '\\' :: 'u' :: a :: b :: c :: d :: rest => do
    let _ ← hexValue4? a b c d
    let (escaped, rest) ← readString? rest
    return ('\\' :: 'u' :: a :: b :: c :: d :: escaped, rest)
  | '\\' :: e :: rest => do
    let _ ← escapeLetter? e
    let (escaped, rest) ← readString? rest
    return ('\\' :: e :: escaped, rest)
  | c :: rest => do
    if c = '\\' || c.toNat < 32 then none
    let (escaped, rest) ← readString? rest
    return (c :: escaped, rest)
  | [] => none

/-- A run of digits, at least one, and what follows. -/
def readDigits? (text : List Char) : Option (List Char × List Char) :=
  let digits := text.takeWhile Char.isDigit
  if digits.isEmpty then none else some (digits, text.dropWhile Char.isDigit)

def readWhole? : List Char → Option (List Char × List Char)
  | '0' :: rest => some (['0'], rest)
  | text => readDigits? text

/-- The point of a number and the digits behind it, if there is a point. -/
def readFraction? : List Char → Option (List Char × List Char)
  | '.' :: rest => do
    let (digits, rest) ← readDigits? rest
    return ('.' :: digits, rest)
  | text => some ([], text)

def readExponent? : List Char → Option (List Char × List Char)
  | e :: rest =>
    if e = 'e' || e = 'E' then do
      let (sign, rest) := match rest with
        | '+' :: rest => (['+'], rest)
        | '-' :: rest => (['-'], rest)
        | rest => ([], rest)
      let (digits, rest) ← readDigits? rest
      return (e :: sign ++ digits, rest)
    else some ([], e :: rest)
  | [] => some ([], [])

/-- A number, as written, and what follows. -/
def readNumberText? (text : List Char) : Option (List Char × List Char) := do
  let (sign, rest) := match text with
    | '-' :: rest => (['-'], rest)
    | rest => ([], rest)
  let (whole, rest) ← readWhole? rest
  if rest.head?.any Char.isDigit then none
  let (fraction, rest) ← readFraction? rest
  let (exponent, rest) ← readExponent? rest
  return (sign ++ whole ++ fraction ++ exponent, rest)

/-- A value that starts at the first character, and what follows. Every level of nesting and every
further member of a list takes from the allowance. -/
def readValue? : (allowance : Nat) → List Char → Option (Json × List Char)
  | 0, _ => none
  | n + 1, '\x7b' :: rest =>
    match skipBlanks rest with
    | '\x7d' :: rest => some (object [], rest)
    | rest => do
      let (fields, rest) ← readFields? n rest
      return (object fields, rest)
  | n + 1, '[' :: rest =>
    match skipBlanks rest with
    | ']' :: rest => some (array [], rest)
    | rest => do
      let (items, rest) ← readItems? n rest
      return (array items, rest)
  | _ + 1, '"' :: rest => do
    let (escaped, rest) ← readString? rest
    return (string escaped, rest)
  | _ + 1, 'n' :: 'u' :: 'l' :: 'l' :: rest => some (null, rest)
  | _ + 1, 't' :: 'r' :: 'u' :: 'e' :: rest => some (bool true, rest)
  | _ + 1, 'f' :: 'a' :: 'l' :: 's' :: 'e' :: rest => some (bool false, rest)
  | _ + 1, text => do
    let (lexeme, rest) ← readNumberText? text
    return (number lexeme, rest)
where
  readItems? : Nat → List Char → Option (List Json × List Char)
    | 0, _ => none
    | n + 1, text => do
      let (item, rest) ← readValue? n (skipBlanks text)
      match skipBlanks rest with
      | ',' :: rest => do
        let (items, rest) ← readItems? n rest
        return (item :: items, rest)
      | ']' :: rest => some ([item], rest)
      | _ => none
  readFields? : Nat → List Char → Option (List (List Char × Json) × List Char)
    | 0, _ => none
    | n + 1, text =>
      match skipBlanks text with
      | '"' :: rest => do
        let (key, rest) ← readString? rest
        match skipBlanks rest with
        | ':' :: rest => do
          let (value, rest) ← readValue? n (skipBlanks rest)
          match skipBlanks rest with
          | ',' :: rest => do
            let (fields, rest) ← readFields? n rest
            return ((key, value) :: fields, rest)
          | '\x7d' :: rest => some ([(key, value)], rest)
          | _ => none
        | _ => none
      | _ => none

/-- The value that a text is. Each step of the reader that does not read a character is followed by
one that does, so twice the length is allowance enough. -/
def read? (text : List Char) : Option Json := do
  let (value, rest) ← readValue? (2 * text.length + 2) (skipBlanks text)
  if (skipBlanks rest).isEmpty then some value else none

end InkAlgebra.Json

/-!
# Escapes in strings

A string is written between quotes with some characters escaped, and read by undoing the escapes.
More escapes are read than are written: any character may be given by its code, and a character
beyond the first 65536 by two surrogates. Main statement: reading what was written gives the text
back.

§1 holds codes, §2 writing, §3 reading, §4 the law.
-/

namespace InkAlgebra.Json

/-! ## §1  Codes -/

def hexDigit (n : Nat) : Char := Nat.digitChar n

/-- The value of a hexadecimal digit in either case. -/
def hexValue? (c : Char) : Option Nat :=
  if '0' ≤ c ∧ c ≤ '9' then some (c.toNat - '0'.toNat)
  else if 'a' ≤ c ∧ c ≤ 'f' then some (c.toNat - 'a'.toNat + 10)
  else if 'A' ≤ c ∧ c ≤ 'F' then some (c.toNat - 'A'.toNat + 10)
  else none

def hexValue4? (a b c d : Char) : Option Nat := do
  return (((← hexValue? a) * 16 + (← hexValue? b)) * 16 + (← hexValue? c)) * 16 + (← hexValue? d)

/-! ## §2  Writing -/

/-- How a character is written in a string: quotes, backslashes and control characters are escaped,
with a letter where there is one. -/
def escapeChar (c : Char) : List Char :=
  match c with
  | '"' => ['\\', '"']
  | '\\' => ['\\', '\\']
  | '\n' => ['\\', 'n']
  | '\r' => ['\\', 'r']
  | '\t' => ['\\', 't']
  | c =>
    if c.toNat = 8 then ['\\', 'b']
    else if c.toNat = 12 then ['\\', 'f']
    else if c.toNat < 32 then
      ['\\', 'u', '0', '0', hexDigit (c.toNat / 16), hexDigit (c.toNat % 16)]
    else [c]

def escape (text : List Char) : List Char := text.flatMap escapeChar

/-! ## §3  Reading -/

def escapeLetter? : Char → Option Char
  | '"' => some '"'
  | '\\' => some '\\'
  | '/' => some '/'
  | 'b' => some (.ofNat 8)
  | 'f' => some (.ofNat 12)
  | 'n' => some '\n'
  | 'r' => some '\r'
  | 't' => some '\t'
  | _ => none

def isHighSurrogate (n : Nat) : Bool := 0xD800 ≤ n && n < 0xDC00

def isLowSurrogate (n : Nat) : Bool := 0xDC00 ≤ n && n < 0xE000

/-- The text that an escaped string stands for. Two surrogates in a row are one character; a
surrogate alone is none. -/
def unescape? : List Char → Option (List Char)
  | [] => some []
  | '\\' :: 'u' :: a :: b :: c :: d :: rest => do
    let n ← hexValue4? a b c d
    if isHighSurrogate n then
      match rest with
      | '\\' :: 'u' :: e :: f :: g :: h :: rest =>
        let m ← hexValue4? e f g h
        if isLowSurrogate m then
          return .ofNat (0x10000 + (n - 0xD800) * 0x400 + (m - 0xDC00)) :: (← unescape? rest)
        else none
      | _ => none
    else if isLowSurrogate n then none
    else return .ofNat n :: (← unescape? rest)
  | '\\' :: e :: rest => do return (← escapeLetter? e) :: (← unescape? rest)
  | ['\\'] => none
  | c :: rest => (unescape? rest).map (c :: ·)

/-! ## §4  Reading what was written -/

theorem hexValue_hexDigit {n : Nat} (h : n < 16) : hexValue? (hexDigit n) = some n := by
  have : ∀ n : Fin 16, hexValue? (hexDigit n) = some n.val := by decide
  exact this ⟨n, h⟩

theorem unescape_cons {c : Char} (hc : c ≠ '\\') (rest : List Char) :
    unescape? (c :: rest) = (unescape? rest).map (c :: ·) := by
  rw [unescape?] <;> simp_all

theorem unescape_letter {e c : Char} (he : escapeLetter? e = some c) (rest : List Char) :
    unescape? ('\\' :: e :: rest) = (unescape? rest).map (c :: ·) := by
  have hu : e ≠ 'u' := by rintro rfl; cases he
  rw [unescape?, he]
  · cases unescape? rest <;> rfl
  · simp_all

/-- A character below the surrogates, written with four hexadecimal digits. -/
theorem unescape_code {a b c d : Char} {n : Nat} (h : hexValue4? a b c d = some n) (hn : n < 0xD800)
    (rest : List Char) :
    unescape? ('\\' :: 'u' :: a :: b :: c :: d :: rest) =
      (unescape? rest).map (Char.ofNat n :: ·) := by
  have high : isHighSurrogate n = false := by simp [isHighSurrogate]; omega
  have low : isLowSurrogate n = false := by simp [isLowSurrogate]; omega
  rw [unescape?, h]
  simp only [Option.bind_eq_bind, Option.bind_some, high, low]
  cases unescape? rest <;> rfl

theorem unescape_escapeChar (c : Char) (rest : List Char) :
    unescape? (escapeChar c ++ rest) = (unescape? rest).map (c :: ·) := by
  have code (n : Nat) (h : c.toNat = n) : Char.ofNat n = c := by
    rw [← h]
    exact Char.ofNat_toNat c
  simp only [escapeChar]
  split
  · exact unescape_letter rfl rest
  · exact unescape_letter rfl rest
  · exact unescape_letter rfl rest
  · exact unescape_letter rfl rest
  · exact unescape_letter rfl rest
  · rename_i hq hb hn hr ht
    split
    · rename_i h
      exact (unescape_letter rfl rest).trans (by rw [code 8 h])
    · split
      · rename_i h
        exact (unescape_letter rfl rest).trans (by rw [code 12 h])
      · split
        · rename_i h
          refine (unescape_code (n := c.toNat) ?_ (by omega) rest).trans (by rw [Char.ofNat_toNat])
          have h₁ := hexValue_hexDigit (n := c.toNat / 16) (by omega)
          have h₂ := hexValue_hexDigit (n := c.toNat % 16) (by omega)
          have h₀ : hexValue? '0' = some 0 := rfl
          simp only [hexValue4?, h₀, h₁, h₂, Option.bind_eq_bind, Option.bind_some, Option.pure_def]
          congr 1
          omega
        · exact unescape_cons hb rest

theorem unescape_escape (text : List Char) : unescape? (escape text) = some text := by
  induction text with
  | nil => rfl
  | cons c rest ih =>
    rw [escape, List.flatMap_cons, unescape_escapeChar]
    exact congrArg (Option.map (c :: ·)) ih

end InkAlgebra.Json

import Mathlib
import InkAlgebra.Expression.Token
import InkAlgebra.Number.Literal

/-!
# Exact arithmetic

An ordered field with a floor is a type of coefficients whose arithmetic rounds nothing. What is
proved over it is what the algebra means when binary64 is read as exact: there is no infinity and no
number that is none, every number is finite, and a power has a value for whole exponents only.

§1 is the instance, which is in force where the namespace `Exact` is opened. §2 is what a numeric
literal is worth: the reader of literals goes through signs, infinities and exponents, and on a run
of digits and points none of that happens.
-/

namespace InkAlgebra

/-! ## §1  Ordered fields as coefficients -/

namespace Exact

variable {K : Type} [Field K] [LinearOrder K] [FloorRing K]

def confined (n : ℤ) : Int32 := Int32.ofInt (max (-2 ^ 31) (min (2 ^ 31 - 1) n))

/-- The whole number nearest to `-log₁₀ x`. The logarithm of the square has the half as a whole
number, and on which side of one `x` lies decides where a half goes. -/
def decades (x : K) : Int32 :=
  if x < 0 then 0
  else if x = 0 then Int32.maxValue
  else if x < 1 then confined (-(Int.clog 10 (x * x) / 2))
  else confined (-((Int.log 10 (x * x) + 1) / 2))

scoped instance : Scalar K where
  ofNat n := n
  abs x := if x < 0 then -x else x

scoped instance : Coefficient K where
  pow x y := if (⌊y⌋ : K) = y then x ^ ⌊y⌋ else 0
  isFinite _ := true
  isInfinite _ := false
  isWhole x := (⌊x⌋ : K) = x
  toCount x := min ⌊x⌋.toNat (2 ^ 64 - 1)
  round x := if x < 0 then -⌊-x + 1 / 2⌋ else ⌊x + 1 / 2⌋
  decades := decades
  ofDecimal mantissa exponent := mantissa * 10 ^ exponent
  infinity := 0
  undefined := 0

/-- The field as coordinates, with a tangent from outside: a field need not hold the tangents of its
angles. -/
@[reducible] def coordinate (tangent : K → K) : Coordinate K where
  lesser := min
  greater := max
  precedes a b := a ≤ b
  slopeAtLeast rise run bound := if run = 0 then 0 < rise else bound ≤ rise / run
  tanDegrees := tangent

end Exact

/-! ## §2  Decimals -/

open Exact

/-- What a run of digits and points says: its digits as one number, and how many of them stand
behind the point; nothing, if it has no digit or several points. -/
def decimal? (text : List Char) : Option (Nat × Nat) :=
  if text.any Char.isDigit && text.count '.' ≤ 1 then
    some (digitsValue 0 (text.filter Char.isDigit), (text.dropWhile (· ≠ '.')).tail.length)
  else none

def decimalValue (K : Type) [Field K] (d : Nat × Nat) : K := d.1 / 10 ^ d.2

theorem digitsValue_append (n : Nat) (front back : List Char) :
    digitsValue n (front ++ back) = digitsValue (digitsValue n front) back := by
  simp [digitsValue]

/-- A run of digits and points is its leading digits alone, or these and a point and more. -/
theorem numeric_split {text : List Char} (h : ∀ c ∈ text, isNumeric c = true) :
    ∃ whole, (∀ c ∈ whole, c.isDigit = true) ∧
      (text = whole ∨ ∃ more, text = whole ++ '.' :: more ∧ ∀ c ∈ more, isNumeric c = true) := by
  induction text with
  | nil => exact ⟨[], by simp, .inl rfl⟩
  | cons c cs ih =>
      obtain ⟨whole, hwhole, hcs⟩ := ih fun d hd => h d (List.mem_cons_of_mem c hd)
      by_cases hc : c.isDigit = true
      · refine ⟨c :: whole, ?_, ?_⟩
        · intro d hd
          rcases List.mem_cons.1 hd with rfl | hd
          · exact hc
          · exact hwhole d hd
        · rcases hcs with rfl | ⟨more, rfl, hmore⟩
          · exact .inl rfl
          · exact .inr ⟨more, rfl, hmore⟩
      · have hdot : c = '.' := by simpa [isNumeric, hc] using h c List.mem_cons_self
        subst hdot
        exact ⟨[], by simp, .inr ⟨cs, rfl, fun d hd => h d (List.mem_cons_of_mem _ hd)⟩⟩

theorem toLower_of_isDigit {c : Char} (h : c.isDigit = true) : c.toLower = c := by
  unfold Char.toLower
  simp only [Char.isDigit, Bool.and_eq_true, decide_eq_true_eq] at h
  refine dif_neg ?_
  rintro ⟨hupper, _⟩
  exact absurd (UInt32.le_trans hupper h.2) (by decide)

/-- A numeric character is no sign, and starts none of the words that are read as numbers. -/
theorem not_word_of_isNumeric {c : Char} (h : isNumeric c = true) :
    c.toLower ≠ 'i' ∧ c.toLower ≠ 'n' ∧ c.toLower ≠ 'e' ∧ c ≠ '-' ∧ c ≠ '+' := by
  rcases (Bool.or_eq_true ..).mp h with hd | hdot
  · rw [toLower_of_isDigit hd]
    refine ⟨?_, ?_, ?_, ?_, ?_⟩ <;>
    · rintro rfl
      exact absurd hd (by decide)
  · rw [of_decide_eq_true hdot]
    decide

theorem ofText?_of_isNumeric {c : Char} (cs : List Char) (h : isNumeric c = true) :
    Literal.ofText? (c :: cs) = Literal.decimal? false (c :: cs) := by
  obtain ⟨hi, hn, _, hminus, hplus⟩ := not_word_of_isNumeric h
  have hsign : Literal.sign (c :: cs) = (false, c :: cs) := by
    unfold Literal.sign
    split
    · rename_i heq
      exact absurd (List.cons.inj heq).1 hminus
    · rename_i heq
      exact absurd (List.cons.inj heq).1 hplus
    · rfl
  have hword : ∀ (d : Char) (ds : List Char), c.toLower ≠ d →
      String.ofList ((c :: cs).map Char.toLower) ≠ String.ofList (d :: ds) := by
    intro d ds hne heq
    exact hne (List.cons.inj (String.ofList_inj.1 heq)).1
  unfold Literal.ofText?
  rw [hsign]
  dsimp only
  split
  · rename_i heq
    exact absurd heq (hword 'i' ['n', 'f'] hi)
  · rename_i heq
    exact absurd heq (hword 'i' ['n', 'f', 'i', 'n', 'i', 't', 'y'] hi)
  · rename_i heq
    exact absurd heq (hword 'n' ['a', 'n'] hn)
  · rfl

theorem ne_dot_of_isDigit {c : Char} (h : c.isDigit = true) : c ≠ '.' := by
  rintro rfl
  exact absurd h (by decide)

theorem decimal?_of_isDigit {whole : List Char} (h : ∀ c ∈ whole, c.isDigit = true) :
    decimal? whole = if whole.isEmpty then none else some (digitsValue 0 whole, 0) := by
  have hfilter : whole.filter Char.isDigit = whole := List.filter_eq_self.2 h
  have hcount : whole.count '.' = 0 :=
    List.count_eq_zero.2 fun hmem => ne_dot_of_isDigit (h _ hmem) rfl
  have hpoint : whole.dropWhile (· ≠ '.') = [] :=
    List.dropWhile_eq_nil_iff.2 fun c hc => decide_eq_true (ne_dot_of_isDigit (h c hc))
  unfold decimal?
  rw [hfilter, hcount, hpoint]
  cases whole with
  | nil => rfl
  | cons c cs => simp [h c List.mem_cons_self]

theorem decimal?_of_point {whole fraction : List Char} (hwhole : ∀ c ∈ whole, c.isDigit = true)
    (hfraction : ∀ c ∈ fraction, c.isDigit = true) :
    decimal? (whole ++ '.' :: fraction) =
      if whole.isEmpty && fraction.isEmpty then none
      else some (digitsValue (digitsValue 0 whole) fraction, fraction.length) := by
  have hfilter : (whole ++ '.' :: fraction).filter Char.isDigit = whole ++ fraction := by
    rw [List.filter_append, List.filter_eq_self.2 hwhole,
      List.filter_cons_of_neg (by decide), List.filter_eq_self.2 hfraction]
  have hcount : (whole ++ '.' :: fraction).count '.' = 1 := by
    have hw : whole.count '.' = 0 :=
      List.count_eq_zero.2 fun hmem => ne_dot_of_isDigit (hwhole _ hmem) rfl
    have hf : fraction.count '.' = 0 :=
      List.count_eq_zero.2 fun hmem => ne_dot_of_isDigit (hfraction _ hmem) rfl
    rw [List.count_append, List.count_cons_self, hw, hf]
  have hpoint : (whole ++ '.' :: fraction).dropWhile (· ≠ '.') = '.' :: fraction := by
    rw [List.dropWhile_append_of_pos fun c hc => decide_eq_true (ne_dot_of_isDigit (hwhole c hc))]
    rfl
  have hany : (whole ++ '.' :: fraction).any Char.isDigit =
      !(whole.isEmpty && fraction.isEmpty) := by
    cases whole with
    | cons c cs => simp [hwhole c List.mem_cons_self]
    | nil =>
        cases fraction with
        | cons c cs => simp [hfraction c List.mem_cons_self]
        | nil => decide
  unfold decimal?
  rw [hany, hfilter, hcount, hpoint, digitsValue_append]
  cases whole.isEmpty && fraction.isEmpty <;> rfl

theorem decimal?_of_points {whole fraction rest : List Char} :
    decimal? (whole ++ '.' :: (fraction ++ '.' :: rest)) = none := by
  have hcount : ¬ (whole ++ '.' :: (fraction ++ '.' :: rest)).count '.' ≤ 1 := by
    rw [List.count_append, List.count_cons_self, List.count_append, List.count_cons_self]
    omega
  unfold decimal?
  rw [decide_eq_false hcount, Bool.and_false]
  rfl

/-- The reader of literals and `decimal?` take a run of digits and points apart alike. -/
theorem literalDecimal?_of_isNumeric {text : List Char} (h : ∀ c ∈ text, isNumeric c = true) :
    Literal.decimal? false text =
      (decimal? text).map fun d => .decimal false d.1 (0 - (d.2 : ℤ)) := by
  have htake : ∀ (digits tail : List Char), (∀ c ∈ digits, c.isDigit = true) →
      (digits ++ '.' :: tail).takeWhile Char.isDigit = digits ∧
        (digits ++ '.' :: tail).dropWhile Char.isDigit = '.' :: tail := by
    intro digits tail hdigits
    rw [List.takeWhile_append_of_pos hdigits, List.dropWhile_append_of_pos hdigits]
    exact ⟨List.append_nil digits, rfl⟩
  have hall : ∀ digits : List Char, (∀ c ∈ digits, c.isDigit = true) →
      digits.takeWhile Char.isDigit = digits ∧ digits.dropWhile Char.isDigit = [] := by
    intro digits hdigits
    exact ⟨List.takeWhile_eq_self_iff.2 hdigits, List.dropWhile_eq_nil_iff.2 hdigits⟩
  -- a run has no point, one point, or at least two, and then both sides give up
  obtain ⟨whole, hwhole, rfl | ⟨more, rfl, hmore⟩⟩ := numeric_split h
  · rw [decimal?_of_isDigit hwhole]
    unfold Literal.decimal?
    simp only [hall text hwhole]
    cases text with
    | nil => rfl
    | cons c cs => rfl
  · obtain ⟨fraction, hfraction, rfl | ⟨rest, rfl, hrest⟩⟩ := numeric_split hmore
    · rw [decimal?_of_point hwhole hfraction]
      unfold Literal.decimal?
      simp only [htake whole more hwhole, hall more hfraction]
      cases whole.isEmpty && more.isEmpty <;> rfl
    · rw [decimal?_of_points]
      unfold Literal.decimal?
      simp only [htake whole _ hwhole, htake fraction rest hfraction]
      cases whole.isEmpty && fraction.isEmpty <;> rfl

/-- **What a literal is worth.** A run of digits and points is read as the decimal it says, and is
no number if it says none. -/
theorem readNumber?_of_isNumeric {K : Type} [Field K] [LinearOrder K] [FloorRing K]
    {text : List Char} (hne : text ≠ []) (h : ∀ c ∈ text, isNumeric c = true) :
    readNumber? K text = (decimal? text).map (decimalValue K) := by
  obtain ⟨c, cs, rfl⟩ := List.exists_cons_of_ne_nil hne
  rw [readNumber?, ofText?_of_isNumeric cs (h c List.mem_cons_self), literalDecimal?_of_isNumeric h,
    Option.map_map]
  congr 1
  funext d
  show ((d.1 : K) * 10 ^ (0 - (d.2 : ℤ))) = d.1 / 10 ^ d.2
  rw [zero_sub, zpow_neg, zpow_natCast, div_eq_mul_inv]

end InkAlgebra

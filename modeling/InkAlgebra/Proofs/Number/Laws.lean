import Mathlib
import InkAlgebra.Proofs.Number.Decades
import InkAlgebra.Proofs.Number.Exact

/-!
# Laws that rounding leaves intact

Sums of rounded numbers do not associate, and a product need not be near what is expected of it. A
few laws hold all the same, in binary64 as in exact arithmetic; a class of laws lists those that one
argument needs.
-/

namespace InkAlgebra

/-- Zero is neutral for numbers that are not zero, and they stay apart from it when their sign is
turned. Of zeros, of which there may be two, only the one is spoken of that is written `0`. -/
class LawfulZero (α : Type) [Coefficient α] : Prop where
  zero_add {x : α} : (x == 0) = false → 0 + x = x
  neg_beq_zero {x : α} : (x == 0) = false → (-x == 0) = false
  zero_beq_zero : ((0 : α) + Coefficient.ofDecimal 0 0 == 0) = true

/-- Zero is equal to itself, and it does not matter on which side of a comparison a number stands. A
number that differs from itself is none of its business. -/
class LawfulComparison (α : Type) [Scalar α] : Prop where
  beq_comm (x y : α) : (x == y) = (y == x)
  zero_beq_zero : ((0 : α) == 0) = true

/-- One is neutral in products, it is not zero, and nothing else compares as equal to it. -/
class LawfulOne (α : Type) [Scalar α] : Prop where
  mul_one (x : α) : x * 1 = x
  one_mul (x : α) : 1 * x = x
  one_beq_zero : ((1 : α) == 0) = false
  eq_one_of_beq {x : α} : (x == 1) = true → x = 1

/-- A number other than zero is its size, with the sign turned if it is below zero. -/
class LawfulSize (α : Type) [Scalar α] : Prop where
  neg_abs {x : α} : x < 0 → -Scalar.abs x = x
  abs_of_not_lt {x : α} : (x == 0) = false → ¬ x < 0 → Scalar.abs x = x
  abs_beq_zero {x : α} : (x == 0) = false → (Scalar.abs x == 0) = false

/-- A whole number of 32 bits is read from its digits as it is, can be counted again, and is not
below a smaller one. -/
class LawfulWhole (α : Type) [Coefficient α] : Prop where
  ofNat_zero : (Scalar.ofNat 0 : α) = 0
  ofNat_one : (Scalar.ofNat 1 : α) = 1
  ofNat_beq_zero {n : ℕ} : 0 < n → n < UInt32.size → ((Scalar.ofNat n : α) == 0) = false
  ofDecimal_ofNat {n : ℕ} : n < UInt32.size → (Coefficient.ofDecimal n 0 : α) = Scalar.ofNat n
  isWhole_ofNat {n : ℕ} : n < UInt32.size → Coefficient.isWhole (Scalar.ofNat n : α) = true
  toCount_ofNat {n : ℕ} : n < UInt32.size → Coefficient.toCount (Scalar.ofNat n : α) = n
  not_ofNat_lt {m n : ℕ} : m ≤ n → n < UInt32.size → ¬ (Scalar.ofNat n : α) < Scalar.ofNat m

/-- The order for sorting puts everything in a row, also what `≤` leaves incomparable. -/
class LawfulPrecedence (κ : Type) [Coordinate κ] : Prop where
  precedes_trans {a b c : κ} :
    Coordinate.precedes a b = true → Coordinate.precedes b c = true → Coordinate.precedes a c = true
  precedes_total (a b : κ) : (Coordinate.precedes a b || Coordinate.precedes b a) = true

/-- What is larger than a count is larger than every smaller count. -/
class LawfulCount (α : Type) [Scalar α] : Prop where
  lt_of_ofNat_lt {m n : ℕ} {x : α} : m ≤ n → n < UInt32.size →
    Scalar.ofNat n < x → Scalar.ofNat m < x

/-- Cut off to a count, a factor that does not take one count over another does not do so. -/
class LawfulCap (α : Type) [Coefficient α] : Prop where
  mul_toCount_le {c d : ℕ} {x : α} : c < UInt32.size → d < UInt32.size →
    ¬ (Scalar.ofNat c : α) < Scalar.ofNat d * x → d * Coefficient.toCount x ≤ c

/-- Between zero and one no count of decades is the least word. -/
class LawfulDecades (α : Type) [Coefficient α] : Prop where
  decades_ne_minValue {x : α} : 0 < x → x < 1 → Coefficient.decades x ≠ Int32.minValue

instance : LawfulZero Float where
  zero_add := Binary64.zero_add_of_beq_zero
  neg_beq_zero := Binary64.neg_beq_zero
  zero_beq_zero := by decide +kernel

instance : LawfulComparison Float where
  beq_comm := Binary64.beq_comm
  zero_beq_zero := by decide +kernel

instance : LawfulOne Float where
  mul_one := Binary64.mul_one
  one_mul := Binary64.one_mul
  one_beq_zero := by decide +kernel
  eq_one_of_beq := Binary64.eq_one_of_beq

instance : LawfulSize Float where
  neg_abs := Binary64.neg_abs_of_lt
  abs_of_not_lt := Binary64.abs_of_not_lt
  abs_beq_zero := Binary64.abs_beq_zero

instance : LawfulWhole Float where
  ofNat_zero := Binary64.ofNat_zero
  ofNat_one := Binary64.ofNat_one
  ofNat_beq_zero hpos hn := Binary64.ofNat_beq_zero hpos (hn.trans (by decide))
  ofDecimal_ofNat hn := Binary64.ofDecimal_ofNat (hn.trans (by decide))
  isWhole_ofNat hn := Binary64.isWhole_ofNat (hn.trans (by decide))
  toCount_ofNat hn := Binary64.toNat_toUInt64_ofNat (hn.trans (by decide))
  not_ofNat_lt hmn hn := Binary64.not_ofNat_lt_ofNat hmn (hn.trans (by decide))

instance : LawfulPrecedence Float where
  precedes_trans := Binary64.precedes_trans
  precedes_total := Binary64.precedes_total

instance : LawfulCount Float where
  lt_of_ofNat_lt hmn hn hx :=
    Binary64.lt_of_le_of_lt (Binary64.ofNat_le_ofNat hmn (hn.trans (by decide))) hx

instance : LawfulCap Float where
  mul_toCount_le hc hd h := Binary64.mul_toUInt64_le hc hd h

instance : LawfulDecades Float where
  decades_ne_minValue {x} hpos hone := by
    intro hleast
    have hlow := (Binary64.decades_bounds hpos hone).1
    rw [show Binary64.decades x = Int32.minValue from hleast] at hlow
    exact absurd hlow (by decide)

namespace Exact

variable {K : Type} [Field K] [LinearOrder K] [FloorRing K]

scoped instance : LawfulZero K where
  zero_add _ := zero_add _
  neg_beq_zero h := by simpa using h
  zero_beq_zero := by
    show decide ((0 : K) + (0 : ℕ) * 10 ^ (0 : ℤ) = 0) = true
    simp

scoped instance : LawfulComparison K where
  beq_comm _ _ := decide_eq_decide.2 eq_comm
  zero_beq_zero := decide_eq_true rfl

scoped instance : LawfulOne K where
  mul_one _ := mul_one _
  one_mul _ := one_mul _
  one_beq_zero := decide_eq_false one_ne_zero
  eq_one_of_beq := of_decide_eq_true

scoped instance : LawfulSize K where
  neg_abs {x} h := by
    show -(if x < 0 then -x else x) = x
    rw [if_pos h, neg_neg]
  abs_of_not_lt {x} _ h := if_neg h
  abs_beq_zero {x} h := by
    have hne : x ≠ 0 := of_decide_eq_false h
    refine decide_eq_false ?_
    show (if x < 0 then -x else x) ≠ 0
    split
    · exact neg_ne_zero.2 hne
    · exact hne

variable [IsStrictOrderedRing K]

scoped instance : LawfulWhole K where
  ofNat_zero := Nat.cast_zero
  ofNat_one := Nat.cast_one
  ofNat_beq_zero hpos _ := decide_eq_false (Nat.cast_ne_zero.2 hpos.ne')
  ofDecimal_ofNat {n} _ := by
    show (n : K) * 10 ^ (0 : ℤ) = n
    rw [zpow_zero, mul_one]
  isWhole_ofNat {n} _ := by
    show decide ((⌊(n : K)⌋ : K) = n) = true
    rw [Int.floor_natCast, Int.cast_natCast, decide_eq_true rfl]
  toCount_ofNat {n} hn := by
    have hword : n < 2 ^ 32 := hn
    show min ⌊(n : K)⌋.toNat (2 ^ 64 - 1) = n
    rw [Int.floor_natCast, Int.toNat_natCast, Nat.min_eq_left (by omega)]
  not_ofNat_lt {m n} hmn _ := not_lt_of_ge (Nat.cast_le.2 hmn)

scoped instance : LawfulCap K where
  mul_toCount_le {c d x} _ _ h := by
    have hle : (d : K) * x ≤ c := not_lt.1 h
    show d * min ⌊x⌋.toNat (2 ^ 64 - 1) ≤ c
    refine (Nat.mul_le_mul_left d (Nat.min_le_left _ _)).trans ?_
    rcases le_or_gt ⌊x⌋ 0 with hneg | hpos
    · rw [Int.toNat_eq_zero.2 hneg]
      exact Nat.zero_le c
    · have hcut : ((⌊x⌋.toNat : ℕ) : K) ≤ x := by
        rw [← Int.cast_natCast, Int.toNat_of_nonneg hpos.le]
        exact Int.floor_le x
      have hproduct : ((d * ⌊x⌋.toNat : ℕ) : K) ≤ c := by
        push_cast
        exact (mul_le_mul_of_nonneg_left hcut (Nat.cast_nonneg d)).trans hle
      exact_mod_cast hproduct

/-- A number below one has no negative count of decades. -/
scoped instance : LawfulDecades K where
  decades_ne_minValue {x} hpos hone := by
    have hsquare : x * x < 1 := mul_lt_one_of_nonneg_of_lt_one_left hpos.le hone hone.le
    have hclog : Int.clog 10 (x * x) ≤ 0 :=
      (Int.clog_mono_right (mul_pos hpos hpos) hsquare.le).trans_eq (Int.clog_one_right 10)
    intro hleast
    have hvalue := congrArg Int32.toInt hleast
    change (decades x).toInt = -2 ^ 31 at hvalue
    rw [decades, if_neg hpos.not_gt, if_neg hpos.ne', if_pos hone, confined,
      Int32.toInt_ofInt_of_le (by omega) (by omega)] at hvalue
    omega

end Exact

end InkAlgebra

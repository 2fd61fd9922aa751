import Mathlib
import InkAlgebra.Proofs.Polynomial.Reduced

/-!
# Polynomials of one term

A number, the variable and what is made of them by multiplying have one term each. Multiplied, their
degrees add up, as long as the sum is a word of 32 bits. All rounds in which a power of the variable
is computed stay below the degree of the power, which is within the cap and so such a word.

From such terms a polynomial is put together from the highest degree down. Each term goes to the
front and is added to a zero there, and all terms behind it are added to zeros once more, which
changes no coefficient that is not zero.

§1 are products, §2 powers, §3 sums.
-/

namespace InkAlgebra.Polynomial

variable {α : Type} [Coefficient α]

def single (d : UInt32) (c : α) : Polynomial α := ⟨[(d, c)], List.pairwise_singleton _ _⟩

theorem reduced_single (d : UInt32) {c : α} (h : (c == 0) = false) : (single d c).Reduced := by
  intro t ht
  obtain rfl := List.mem_singleton.1 ht
  exact h

theorem neg_single (d : UInt32) (c : α) : (single d c).neg = single d (-c) := rfl

variable [LawfulZero α]

/-! ## §1  Products -/

theorem ofTerms_singleton (d : UInt32) {c : α} (h : (c == 0) = false) :
    ofTerms [(d, c)] = single d c :=
  (reduced_single d h).ofTerms_terms

theorem constant_eq_single {c : α} (h : (c == 0) = false) : constant c = single 0 c :=
  ofTerms_singleton 0 h

theorem multiply_single {d e : UInt32} {a b : α} (hfit : d.toNat + e.toNat < UInt32.size)
    (h : (a * b == 0) = false) :
    (single d a).multiply (single e b) = .ok (single (d + e) (a * b)) := by
  have hproduct : ofTerms [(d + e, a * b)] = single (d + e) (a * b) := ofTerms_singleton (d + e) h
  rw [← hproduct]
  exact multiply_of_lt hfit

variable [LawfulOne α]

theorem indeterminate_eq_single : (indeterminate : Polynomial α) = single 1 1 :=
  ofTerms_singleton 1 LawfulOne.one_beq_zero

theorem multiply_single_one {d e : UInt32} {c : α} (hfit : d.toNat + e.toNat < UInt32.size)
    (h : (c == 0) = false) : (single d c).multiply (single e 1) = .ok (single (d + e) c) := by
  rw [multiply_single hfit (by rwa [LawfulOne.mul_one]), LawfulOne.mul_one]

/-! ## §2  Powers -/

theorem multiplyResults_single_ofNat {d e : ℕ} (h : d + e < UInt32.size) :
    multiplyResults (.ok (single (.ofNat d) (1 : α))) (.ok (single (.ofNat e) 1)) =
      .ok (single (.ofNat (d + e)) 1) := by
  have hd : (UInt32.ofNat d).toNat = d := UInt32.toNat_ofNat_of_lt' (by omega)
  have he : (UInt32.ofNat e).toNat = e := UInt32.toNat_ofNat_of_lt' (by omega)
  rw [UInt32.ofNat_add]
  exact multiply_single_one (by rwa [hd, he]) LawfulOne.one_beq_zero

/-- Squaring and multiplying adds up degrees. -/
theorem raise_single {d e n : ℕ} (h : d + e * n < UInt32.size) :
    Scalar.raise multiplyResults (.ok (single (.ofNat d) (1 : α))) (.ok (single (.ofNat e) 1)) n =
      .ok (single (.ofNat (d + e * n)) 1) := by
  induction n using Nat.strong_induction_on generalizing d e with
  | _ n ih =>
      rw [Scalar.raise]
      by_cases hzero : n = 0
      · rw [if_pos hzero, hzero, Nat.mul_zero, Nat.add_zero]
      have hhalf : n % 2 + 2 * (n / 2) = n := Nat.mod_add_div n 2
      have hsum : d + e * (n % 2) + (e + e) * (n / 2) = d + e * n := by
        conv_rhs => rw [← hhalf]
        ring
      have hround : (if n % 2 = 1 then multiplyResults (.ok (single (.ofNat d) (1 : α)))
            (.ok (single (.ofNat e) 1)) else .ok (single (.ofNat d) 1)) =
          .ok (single (.ofNat (d + e * (n % 2))) 1) := by
        rcases Nat.mod_two_eq_zero_or_one n with hdigit | hdigit
        · rw [hdigit, if_neg (by decide), Nat.mul_zero, Nat.add_zero]
        · rw [hdigit, Nat.mul_one] at hsum ⊢
          rw [if_pos rfl]
          exact multiplyResults_single_ofNat (by omega)
      rw [if_neg hzero]
      dsimp only
      rw [hround]
      by_cases hlast : n / 2 = 0
      · rw [if_pos hlast]
        rw [hlast, Nat.mul_zero, Nat.add_zero] at hsum
        rw [hsum]
      · have hsquare : e + e ≤ (e + e) * (n / 2) :=
          Nat.le_mul_of_pos_right _ (Nat.pos_of_ne_zero hlast)
        rw [if_neg hlast, multiplyResults_single_ofNat (by omega), ih (n / 2) (by omega) (by omega),
          hsum]

variable [LawfulWhole α]

/-- **A power of the variable** has the degree that its exponent says, if that is within the cap. -/
theorem power_single {d cap : UInt32} (hd : d ≠ 0) (hcap : d ≤ cap) :
    (single 1 (1 : α)).power (constant (Scalar.ofNat d.toNat)) cap = .ok (single d 1) := by
  have hpos : 0 < d.toNat := Nat.pos_of_ne_zero fun h => hd (UInt32.toNat_inj.1 h)
  have hword : d.toNat < UInt32.size := d.toNat_lt
  have hcap' : d.toNat ≤ cap.toNat := UInt32.le_iff_toNat_le.1 hcap
  have hconstant : (single 0 (Scalar.ofNat d.toNat : α)).isConstant = true := rfl
  have hvariable : (single 1 (1 : α)).isConstant = false := rfl
  have hexponent : (single 0 (Scalar.ofNat d.toNat : α)).coefficient 0 = Scalar.ofNat d.toNat := rfl
  have hdegree : (Scalar.ofNat 1 : α) * Scalar.ofNat d.toNat = Scalar.ofNat d.toNat := by
    rw [LawfulWhole.ofNat_one, LawfulOne.one_mul]
  have hnegative : ¬ (Scalar.ofNat d.toNat : α) < 0 := by
    rw [← LawfulWhole.ofNat_zero]
    exact LawfulWhole.not_ofNat_lt (Nat.zero_le _) hword
  have hfits : ¬ (Scalar.ofNat cap.toNat : α) < Scalar.ofNat d.toNat :=
    LawfulWhole.not_ofNat_lt hcap' cap.toNat_lt
  rw [constant_eq_single (LawfulWhole.ofNat_beq_zero hpos hword), power,
    hconstant, if_neg (by decide)]
  dsimp only
  rw [hexponent, LawfulWhole.isWhole_ofNat hword, hvariable, if_neg (by decide),
    if_neg hnegative, if_neg (by decide)]
  show (if (Scalar.ofNat cap.toNat : α) < Scalar.ofNat 1 * Scalar.ofNat d.toNat then _ else _) = _
  rw [hdegree, if_neg hfits, LawfulWhole.toCount_ofNat hword,
    constant_eq_single LawfulOne.one_beq_zero]
  have hraise := raise_single (α := α) (d := 0) (e := 1) (n := d.toNat) (by omega)
  rwa [Nat.zero_add, Nat.one_mul, UInt32.ofNat_toNat] at hraise

/-! ## §3  Sums -/

omit [LawfulOne α] [LawfulWhole α] in
/-- A term below all others goes to the front. -/
theorem terms_plus_single {p : Polynomial α} (hp : p.Reduced) {d : UInt32} {c : α}
    (hc : (c == 0) = false) (h : ∀ t ∈ p.terms, d < t.1) :
    (p.plus (single d c)).terms = (d, c) :: p.terms := by
  have hsum : sumTerms (p.terms ++ [(d, c)]) = (d, c) :: p.terms := by
    have hfront : sumTerms (p.terms ++ [(d, c)]) = addTerm d c (sumTerms p.terms) := by
      rw [sumTerms, List.foldl_append]
      rfl
    rw [hfront, hp.sumTerms_terms, addTerm_of_forall_gt h, LawfulZero.zero_add hc]
  show (sumTerms (p.terms ++ [(d, c)])).filter (fun t => !(t.2 == 0)) = _
  rw [hsum, List.filter_cons_of_pos (by simp [hc]), hp.filter_terms]

end InkAlgebra.Polynomial

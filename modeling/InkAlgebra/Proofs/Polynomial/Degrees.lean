import Mathlib
import InkAlgebra.Polynomial.Basic

/-!
# Degrees of products and powers

A product that there is has the degrees that it is meant to have: each of them is the sum of two. A
power is computed by squaring and multiplying, and `Raising` is what the computation holds between
two rounds. No round holds a polynomial of a higher degree than all factors together have, unless
nothing has been squared yet, so that no round breaks off if those together have room.

§1 are products, §2 rounds, §3 the degrees in them.
-/

namespace InkAlgebra.Polynomial

variable {α : Type} [Scalar α]

/-! ## §1  Products -/

theorem toNat_degree_ofTerms_le {row : List (Term α)} {n : ℕ} (h : ∀ t ∈ row, t.1.toNat ≤ n) :
    (ofTerms row).degree.toNat ≤ n := by
  apply Nat.le_of_lt_succ
  apply degree_lt n.succ_pos
  intro t ht
  obtain ⟨s, hs, hst⟩ := degree_of_mem_ofTerms ht
  rw [hst]
  exact Nat.lt_succ_of_le (h s hs)

theorem toNat_degree_constant (c : α) : (constant c).degree.toNat = 0 := by
  apply Nat.le_zero.1
  apply toNat_degree_ofTerms_le
  intro t ht
  rw [List.mem_singleton.1 ht]
  exact le_rfl

omit [Scalar α] in
theorem toNat_degree_eq_zero {p : Polynomial α} (h : p.isConstant = true) : p.degree.toNat = 0 := by
  rw [show p.degree = 0 from of_decide_eq_true h]
  rfl

omit [Scalar α] in
theorem toNat_degree_pos {p : Polynomial α} (h : p.isConstant = false) : 0 < p.degree.toNat := by
  apply Nat.pos_of_ne_zero
  intro hzero
  exact of_decide_eq_false h (UInt32.toNat_inj.1 hzero)

variable {p q r : Polynomial α}

/-- **Exact degrees.** Each degree in a product is the sum of two, and not what is left of a sum
that has more than 32 bits. -/
theorem degree_of_mem_multiply (h : p.multiply q = .ok r) {u : Term α} (hu : u ∈ r.terms) :
    ∃ s ∈ p.terms, ∃ t ∈ q.terms, u.1.toNat = s.1.toNat + t.1.toNat := by
  obtain ⟨hfit, rfl⟩ := multiply_eq_ok h
  obtain ⟨v, hv, huv⟩ := degree_of_mem_ofTerms hu
  obtain ⟨s, hs, hv⟩ := List.mem_flatMap.1 hv
  obtain ⟨t, ht, rfl⟩ := List.mem_map.1 hv
  refine ⟨s, hs, t, ht, ?_⟩
  rw [huv, UInt32.toNat_add]
  exact Nat.mod_eq_of_lt (hfit s hs t ht)

theorem toNat_degree_multiply_le (h : p.multiply q = .ok r) :
    r.degree.toNat ≤ p.degree.toNat + q.degree.toNat := by
  apply Nat.le_of_lt_succ
  apply degree_lt (Nat.succ_pos _)
  intro u hu
  obtain ⟨s, hs, t, ht, hdegree⟩ := degree_of_mem_multiply h hu
  rw [hdegree]
  exact Nat.lt_succ_of_le (Nat.add_le_add (le_degree hs) (le_degree ht))

theorem exists_multiply_of_lt (h : p.degree.toNat + q.degree.toNat < UInt32.size) :
    ∃ r, p.multiply q = .ok r ∧ r.degree.toNat ≤ p.degree.toNat + q.degree.toNat :=
  ⟨_, multiply_of_lt h, toNat_degree_multiply_le (multiply_of_lt h)⟩

/-! ## §2  Rounds -/

/-- What squaring and multiplying holds before a round. -/
structure Raising (α : Type) where
  accumulated : Polynomial α
  base : Polynomial α
  /-- The power of the base that is still to be multiplied in. -/
  left : ℕ

namespace Raising

/-- The base is multiplied in if the lowest binary digit says so. -/
def nextAccumulated (s : Raising α) : Except (Halt (EquationError α)) (Polynomial α) :=
  if s.left % 2 = 1 then s.accumulated.multiply s.base else .ok s.accumulated

/-- The base is squared unless the round is the last one. -/
def nextBase (s : Raising α) : Except (Halt (EquationError α)) (Polynomial α) :=
  if s.left / 2 = 0 then .ok s.base else s.base.multiply s.base

/-- One round. -/
def next (s : Raising α) : Except (Halt (EquationError α)) (Raising α) := do
  let accumulated ← s.nextAccumulated
  let base ← s.nextBase
  return ⟨accumulated, base, s.left / 2⟩

/-- What is held after a number of rounds. -/
def after (s : Raising α) : ℕ → Except (Halt (EquationError α)) (Raising α)
  | 0 => .ok s
  | k + 1 => s.after k >>= next

/-- What comes out. -/
def result (s : Raising α) : Except (Halt (EquationError α)) (Polynomial α) :=
  Scalar.raise multiplyResults (.ok s.accumulated) (.ok s.base) s.left

variable {s t : Raising α}

/-- A round by what it does to each part. -/
theorem exists_of_next (h : s.next = .ok t) :
    s.nextAccumulated = .ok t.accumulated ∧ s.nextBase = .ok t.base ∧ t.left = s.left / 2 := by
  obtain ⟨accumulated, haccumulated, h⟩ := exists_of_bind_eq_ok h
  obtain ⟨base, hbase, h⟩ := exists_of_bind_eq_ok h
  cases h
  exact ⟨haccumulated, hbase, rfl⟩

theorem result_of_left (h : s.left = 0) : s.result = .ok s.accumulated := by
  rw [result, Scalar.raise, if_pos h]

/-- A round leaves the power to the rounds that follow. -/
theorem result_next (h : s.next = .ok t) : t.result = s.result := by
  obtain ⟨haccumulated, hbase, hleft⟩ := exists_of_next h
  by_cases hzero : s.left = 0
  · have hleft' : t.left = 0 := by rw [hleft, hzero]
    rw [nextAccumulated, hzero, if_neg (by decide)] at haccumulated
    rw [result_of_left hleft', result_of_left hzero, haccumulated]
  have hround : (if s.left % 2 = 1 then multiplyResults (.ok s.accumulated) (.ok s.base)
      else .ok s.accumulated) = .ok t.accumulated := haccumulated
  conv_rhs => rw [result, Scalar.raise, if_neg hzero]
  dsimp only
  rw [hround]
  by_cases hlast : s.left / 2 = 0
  · rw [if_pos hlast, result_of_left (hleft.trans hlast)]
  · have hsquare : multiplyResults (.ok s.base) (.ok s.base) = .ok t.base := by
      rwa [nextBase, if_neg hlast] at hbase
    rw [if_neg hlast, hsquare, ← hleft]
    rfl

end Raising

/-! ## §3  Degrees in the rounds -/

namespace Raising

/-- Whether a bound on degrees holds of the accumulated factors together with those still to come,
and of the base if it is another than the one at the start. -/
structure Within (bound : ℕ) (p : Polynomial α) (s : Raising α) : Prop where
  accumulated_le : s.accumulated.degree.toNat + s.base.degree.toNat * s.left ≤ bound
  base_le : s.base = p ∨ s.base.degree.toNat ≤ bound

variable {bound : ℕ} {s : Raising α}

theorem Within.exists_accumulated (h : s.Within bound p) (hbound : bound < UInt32.size) :
    ∃ a, s.nextAccumulated = .ok a ∧
      a.degree.toNat ≤ s.accumulated.degree.toNat + s.base.degree.toNat * (s.left % 2) := by
  unfold nextAccumulated
  rcases Nat.mod_two_eq_zero_or_one s.left with heven | hodd
  · rw [heven, if_neg (by decide)]
    exact ⟨_, rfl, Nat.le_add_right _ _⟩
  · have hleft : s.base.degree.toNat * 1 ≤ s.base.degree.toNat * s.left :=
      Nat.mul_le_mul_left _ (by omega)
    have hle := h.accumulated_le
    rw [hodd, if_pos rfl, mul_one]
    exact exists_multiply_of_lt (by omega)

/-- **One round** does not break off where there is room for all factors together, and stays within
the same bound. -/
theorem Within.exists_next (h : s.Within bound p) (hbound : bound < UInt32.size) :
    ∃ t, s.next = .ok t ∧ t.Within bound p := by
  obtain ⟨a, ha, hdegree⟩ := h.exists_accumulated hbound
  have hall : s.accumulated.degree.toNat + s.base.degree.toNat * (s.left % 2) +
      (s.base.degree.toNat + s.base.degree.toNat) * (s.left / 2) ≤ bound := by
    calc s.accumulated.degree.toNat + s.base.degree.toNat * (s.left % 2) +
          (s.base.degree.toNat + s.base.degree.toNat) * (s.left / 2)
        = s.accumulated.degree.toNat +
            s.base.degree.toNat * (s.left % 2 + 2 * (s.left / 2)) := by ring
      _ ≤ bound := by
        rw [Nat.mod_add_div]
        exact h.accumulated_le
  rw [next, ha, nextBase]
  by_cases hlast : s.left / 2 = 0
  · rw [if_pos hlast]
    rw [hlast, mul_zero, add_zero] at hall
    refine ⟨⟨a, s.base, s.left / 2⟩, rfl, ?_, h.base_le⟩
    show a.degree.toNat + s.base.degree.toNat * (s.left / 2) ≤ bound
    rw [hlast, mul_zero, add_zero]
    exact hdegree.trans hall
  · have hsquare : (s.base.degree.toNat + s.base.degree.toNat) * 1 ≤
        (s.base.degree.toNat + s.base.degree.toNat) * (s.left / 2) :=
      Nat.mul_le_mul_left _ (Nat.pos_of_ne_zero hlast)
    obtain ⟨b, hb, hbdegree⟩ := exists_multiply_of_lt (p := s.base) (q := s.base) (by omega)
    have hbase : b.degree.toNat ≤ bound := by omega
    rw [if_neg hlast, hb]
    refine ⟨⟨a, b, s.left / 2⟩, rfl, ?_, .inr hbase⟩
    calc a.degree.toNat + b.degree.toNat * (s.left / 2)
        ≤ s.accumulated.degree.toNat + s.base.degree.toNat * (s.left % 2) +
            (s.base.degree.toNat + s.base.degree.toNat) * (s.left / 2) :=
          Nat.add_le_add hdegree (Nat.mul_le_mul_right _ hbdegree)
      _ ≤ bound := hall

/-- **All rounds.** -/
theorem Within.exists_after (h : s.Within bound p) (hbound : bound < UInt32.size) (k : ℕ) :
    ∃ t, s.after k = .ok t ∧ t.Within bound p ∧ t.left = s.left / 2 ^ k ∧ t.result = s.result := by
  induction k with
  | zero => exact ⟨s, rfl, h, (Nat.div_one _).symm, rfl⟩
  | succ k ih =>
      obtain ⟨t, ht, hwithin, hleft, hresult⟩ := ih
      obtain ⟨u, hu, hwithin'⟩ := hwithin.exists_next hbound
      refine ⟨u, ?_, hwithin', ?_, (result_next hu).trans hresult⟩
      · rw [after, ht]
        exact hu
      · rw [(exists_of_next hu).2.2, hleft, Nat.div_div_eq_div_mul, pow_succ]

/-- Rounds end, and the last one has the result. -/
theorem Within.exists_last (h : s.Within bound p) (hbound : bound < UInt32.size) :
    ∃ t, s.after s.left = .ok t ∧ t.Within bound p ∧ t.left = 0 ∧ s.result = .ok t.accumulated := by
  obtain ⟨t, ht, hwithin, hleft, hresult⟩ := h.exists_after hbound s.left
  have hzero : t.left = 0 := by
    rw [hleft]
    exact Nat.div_eq_of_lt s.left.lt_two_pow_self
  exact ⟨t, ht, hwithin, hzero, hresult.symm.trans (result_of_left hzero)⟩

end Raising

/-- What is raised does not break off where there is room for all factors together, and has no
higher degree than they have. -/
theorem exists_raise_of_lt {n : ℕ} (h : p.degree.toNat + q.degree.toNat * n < UInt32.size) :
    ∃ r, Scalar.raise multiplyResults (.ok p) (.ok q) n = .ok r ∧
      r.degree.toNat ≤ p.degree.toNat + q.degree.toNat * n := by
  have hwithin : Raising.Within (p.degree.toNat + q.degree.toNat * n) q ⟨p, q, n⟩ :=
    ⟨le_rfl, .inl rfl⟩
  obtain ⟨t, _, ht, _, hresult⟩ := hwithin.exists_last h
  exact ⟨t.accumulated, hresult, (Nat.le_add_right _ _).trans ht.accumulated_le⟩

end InkAlgebra.Polynomial

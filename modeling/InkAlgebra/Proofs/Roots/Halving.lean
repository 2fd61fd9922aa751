import Mathlib
import InkAlgebra.Proofs.Number.Halfway
import InkAlgebra.Proofs.Roots.Outcome

/-!
# Halving in binary64 ends

Every halving that does not end the search has a middle strictly between the ends, in a row that has
fewer than `2 ^ 64` places. So with a budget of `2 ^ 64` halvings no search of an interval goes on
until the budget is used up, whatever rounding makes of the values: where solving does not converge,
it is a search outward that has run out of moves.

Of the ends nothing is asked; they may be infinite, or no numbers. To what is no number a polynomial
that is not constant gives no value either, as long as the library's power does so.

§1 is what is no number, §2 one halving, §3 all of them, §4 solving.
-/

namespace InkAlgebra

/-! ## §1  What is no number -/

namespace Binary64

open Float.Model (Format UnpackedFloat)

theorem isNaN_iff {x : Float} : x.isNaN = true ↔ x.toModel.unpack = .notANumber := by
  show x.toModel.unpack.isNaN = true ↔ _
  cases x.toModel.unpack <;> simp [UnpackedFloat.isNaN]

/-- There is only one. -/
theorem eq_undefined {x : Float} (h : x.isNaN = true) : x = Coefficient.undefined :=
  eq_of_unpack_eq (isNaN_iff.1 h)

theorem isNaN_add {x y : Float} (h : x.isNaN = true ∨ y.isNaN = true) : (x + y).isNaN = true := by
  have hsum : UnpackedFloat.add Format.binary64 x.toModel.unpack y.toModel.unpack =
      .notANumber := by
    rcases h with h | h <;> rw [isNaN_iff] at h <;> rw [h]
    · rfl
    · cases x.toModel.unpack <;> rfl
  rw [isNaN_iff, add_eq_ofModel, hsum, unpack_ofModel_pack .notANumber]

theorem isNaN_mul {x y : Float} (h : y.isNaN = true) : (x * y).isNaN = true := by
  have hproduct : UnpackedFloat.mul Format.binary64 x.toModel.unpack y.toModel.unpack =
      .notANumber := by
    rw [isNaN_iff.1 h]
    cases x.toModel.unpack <;> rfl
  rw [isNaN_iff, mul_eq_ofModel, hproduct, unpack_ofModel_pack .notANumber]

theorem not_lt_abs {x y : Float} (h : y.isNaN = true) : ¬ x < Scalar.abs y := by
  have habs : (Scalar.abs y : Float).toModel.unpack = .notANumber := by
    show (Float.ofModel (.pack y.toModel.unpack.abs)).toModel.unpack = _
    rw [isNaN_iff.1 h]
    exact unpack_ofModel_pack .notANumber
  rw [lt_iff, habs]
  rintro ⟨_, _, _, hy, _⟩
  cases hy

/-- What the library's power is known to do: what is no number has no power but one. -/
def PowerOfUndefined : Prop :=
  ∀ y : Float, (y == 0) = false → (Float.pow Coefficient.undefined y).isNaN = true

theorem isNaN_pow (hpower : PowerOfUndefined) {y : Float} (hy : (y == 0) = false) :
    (Coefficient.pow Coefficient.undefined y : Float).isNaN = true := by
  have hexact : ∀ n, exactPower Coefficient.undefined n = false := by
    intro n
    have hfield : exponentField Coefficient.undefined = 2047 := by decide +kernel
    simp [exactPower, hfield]
  show (pow Coefficient.undefined y).isNaN = true
  unfold pow
  rw [hy, hexact]
  simp only [Bool.and_false, Bool.false_and, Bool.false_eq_true, if_false]
  split
  · decide +kernel
  · exact hpower y hy

end Binary64

open Binary64

namespace Polynomial

variable {p : Polynomial Float}

theorem isNaN_foldl {value : Term Float → Float} {terms : List (Term Float)} {sum : Float}
    (h : sum.isNaN = true ∨ ∃ t ∈ terms, (value t).isNaN = true) :
    (terms.foldl (fun sum t => sum + value t) sum).isNaN = true := by
  induction terms generalizing sum with
  | nil =>
      rcases h with h | ⟨t, ht, _⟩
      · exact h
      · cases ht
  | cons t rest ih =>
      refine ih ?_
      rcases h with h | ⟨u, hu, hvalue⟩
      · exact .inl (isNaN_add (.inl h))
      · rcases List.mem_cons.1 hu with rfl | hu
        · exact .inl (isNaN_add (.inr hvalue))
        · exact .inr ⟨u, hu, hvalue⟩

/-- A polynomial that is not constant has no value at what is no number. -/
theorem isNaN_eval (hpower : PowerOfUndefined) (hp : 1 ≤ p.degree.toNat) :
    (p.eval Coefficient.undefined).isNaN = true := by
  have hfinite : Coefficient.isInfinite (Coefficient.undefined : Float) = false := by
    decide +kernel
  unfold eval
  rw [hfinite]
  refine isNaN_foldl (.inr ?_)
  obtain ⟨t, ht, hdegree⟩ :=
    exists_mem_degree (isZero_eq_false_of_degree_ne_zero (Nat.one_le_iff_ne_zero.1 hp))
  refine ⟨t, ht, isNaN_mul (isNaN_pow hpower ?_)⟩
  have hsmall : t.1.toNat < 2 ^ 53 := t.1.toNat_lt.trans (by decide)
  rw [beq_zero_eq_false]
  show ∀ s, (Float.ofNat t.1.toNat).toModel.unpack ≠ .zero s
  rw [unpack_ofNat (hdegree ▸ hp) hsmall]
  nofun

/-! ## §2  One halving -/

/-- How many places of the row two numbers are apart. -/
def apart (low high : Float) : ℕ := (rank high.toModel.unpack - rank low.toModel.unpack).natAbs

theorem apart_lt (low high : Float) : apart low high < UInt64.size - 1 := by
  have hlow := abs_le.1 (abs_rank_le (fits_unpack low.toModel.toBits.toBitVec))
  have hhigh := abs_le.1 (abs_rank_le (fits_unpack high.toModel.toBits.toBitVec))
  change _ ≤ rank low.toModel.unpack ∧ rank low.toModel.unpack ≤ _ at hlow
  change _ ≤ rank high.toModel.unpack ∧ rank high.toModel.unpack ≤ _ at hhigh
  unfold apart UInt64.size
  omega

/-- Whether the middle of an interval can be told from both ends. -/
def Divides (low high : Float) : Prop :=
  (Scalar.half (low + high) == low) = false ∧ (Scalar.half (low + high) == high) = false

/-- **One halving.** A middle with a value, that can be told from both ends, makes two intervals of
fewer places. The search goes on in one of them or ends there. -/
theorem apart_lt_of_divides {low high : Float} (h : Divides low high)
    (hnumber : (Scalar.half (low + high)).isNaN = false) {low' high' : Float}
    (hhalf : (low', high') = (low, Scalar.half (low + high)) ∨
      (low', high') = (Scalar.half (low + high), high))
    (hnext : Divides low' high') : apart low' high' < apart low high := by
  cases hmiddle : (Scalar.half (low + high)).toModel.unpack with
  | notANumber =>
      rw [isNaN_iff.2 hmiddle] at hnumber
      cases hnumber
  | infinity s =>
      -- the next middle would be the same infinity
      obtain ⟨hleft, hright⟩ := half_add_of_infinity hmiddle
      have hsame : (Scalar.half (low + high) == Scalar.half (low + high)) = true := by
        rw [beq_iff, hmiddle]
        cases s <;> exact ⟨_, rfl, rfl⟩
      rcases hhalf with heq | heq <;> obtain ⟨rfl, rfl⟩ := Prod.mk.inj heq
      · have hother := hnext.2
        rw [hleft, hsame] at hother
        cases hother
      · have hother := hnext.1
        rw [hright, hsame] at hother
        cases hother
  | zero _ | finite _ _ _ _ =>
      have hfinite : (Scalar.half (low + high)).isFinite = true := by
        show (Scalar.half (low + high)).toModel.unpack.isFinite = true
        rw [hmiddle]
        rfl
      have hbetween := rank_half_add hfinite h.1 h.2
      unfold apart
      rcases hhalf with heq | heq <;> obtain ⟨rfl, rfl⟩ := Prod.mk.inj heq <;> omega

/-! ## §3  All halvings -/

/-- A search that goes on does so in one of the two halves, and its middle can be told from the
ends. -/
theorem bisect_succ_cases (p : Polynomial Float) (ε : Float) (n : ℕ) (low high middle : Float) :
    (p.bisect ε (n + 1) low high middle).isSome = true ∨ ε < Scalar.abs (p.eval middle) ∧
      ∃ low' high', ((low', high') = (low, middle) ∨ (low', high') = (middle, high)) ∧
        Divides low' high' ∧ p.bisect ε (n + 1) low high middle =
          p.bisect ε n low' high' (Scalar.half (low' + high')) := by
  rw [bisect]
  dsimp only
  split
  · rename_i hfar
    have hhalf : (if 0 < p.eval middle * p.eval high then (low, middle) else (middle, high)) =
        (low, middle) ∨
      (if 0 < p.eval middle * p.eval high then (low, middle) else (middle, high)) =
        (middle, high) := by
      split
      · exact .inl rfl
      · exact .inr rfl
    generalize (if 0 < p.eval middle * p.eval high then (low, middle) else (middle, high)) = half
      at hhalf ⊢
    obtain ⟨low', high'⟩ := half
    dsimp only
    split
    · exact .inl rfl
    · rename_i hdivides
      rw [Bool.or_eq_true, not_or, Bool.not_eq_true, Bool.not_eq_true] at hdivides
      exact .inr ⟨hfar, low', high', hhalf, hdivides, rfl⟩
  · exact .inl rfl

/-- More halvings than there are places end the search. -/
theorem isSome_bisect_of_apart_lt (hnone : (p.eval Coefficient.undefined).isNaN = true) {ε : Float}
    {n : ℕ} {low high : Float} (h : Divides low high) (hn : apart low high < n) :
    (p.bisect ε n low high (Scalar.half (low + high))).isSome = true := by
  induction n generalizing low high with
  | zero => exact absurd hn (Nat.not_lt_zero _)
  | succ n ih =>
      rcases bisect_succ_cases p ε n low high (Scalar.half (low + high)) with
        hends | ⟨hfar, low', high', hhalf, hdivides, hstep⟩
      · exact hends
      · have hnumber : (Scalar.half (low + high)).isNaN = false := by
          rw [Bool.eq_false_iff]
          intro hnan
          rw [eq_undefined hnan] at hfar
          exact not_lt_abs hnone hfar
        have hless := apart_lt_of_divides h hnumber hhalf hdivides
        rw [hstep]
        exact ih hdivides (by omega)

/-- **Halving ends.** No interval can be halved `2 ^ 64` times, wherever the search starts. -/
theorem isSome_bisect (hnone : (p.eval Coefficient.undefined).isNaN = true) {ε : Float} {n : ℕ}
    (hn : UInt64.size ≤ n) (low high middle : Float) :
    (p.bisect ε n low high middle).isSome = true := by
  obtain ⟨m, rfl⟩ : ∃ m, n = m + 1 := ⟨n - 1, by unfold UInt64.size at hn; omega⟩
  rcases bisect_succ_cases p ε m low high middle with hends | ⟨_, low', high', _, hdivides, hstep⟩
  · exact hends
  · have hapart := apart_lt low' high'
    rw [hstep]
    exact isSome_bisect_of_apart_lt hnone hdivides (by omega)

/-! ## §4  Solving -/

section

variable {α : Type} [Coefficient α] {p : Polynomial α} {s : SolverSettings α}

/-- Whether no search of an interval fails to converge. -/
def Converges (p : Polynomial α) (s : SolverSettings α) : Prop :=
  ∀ lower upper includeUpper,
    p.findRoot lower upper includeUpper s ≠ .error (.unsolvable .noConvergence)

/-- Whether one of the two searches outward from some points runs out of moves. -/
def OutwardRunsOut (p : Polynomial α) (s : SolverSettings α) (points : List α) : Prop :=
  p.lowerBound (points.head?.getD 0) s = .error .noConvergence ∨
    p.upperBound (points.getLast?.getD 0) s = .error .noConvergence

theorem Converges.rootsBetween (h : p.Converges s) (points : List α) :
    p.rootsBetween s points ≠ .error (.unsolvable .noConvergence) := by
  induction points with
  | nil => nofun
  | cons a rest ih =>
      cases rest with
      | nil => nofun
      | cons b rest =>
          intro hfails
          rw [Polynomial.rootsBetween] at hfails
          rcases exists_of_bind_eq_error hfails with hfails | ⟨found, _, hfails⟩
          · exact h _ _ _ hfails
          rcases exists_of_bind_eq_error hfails with hfails | ⟨more, _, hfails⟩
          · exact ih hfails
          · cases hfails

theorem Converges.rootsLeftOf (h : p.Converges s) {first : α}
    (hfails : p.rootsLeftOf s first = .error (.unsolvable .noConvergence)) :
    p.lowerBound first s = .error .noConvergence := by
  rcases exists_of_bind_eq_error hfails with hfails | ⟨bound, _, hfails⟩
  · obtain ⟨cause, hcause, heq⟩ := exists_of_mapError_eq_error hfails
    cases heq
    exact hcause
  cases bound with
  | none => cases hfails
  | some low =>
      rcases exists_of_bind_eq_error hfails with hfails | ⟨found, _, hfails⟩
      · exact absurd hfails (h _ _ _)
      · cases hfails

theorem Converges.rootsFrom (h : p.Converges s) {last : α} {before : List α}
    (hfails : p.rootsFrom s last before = .error (.unsolvable .noConvergence)) :
    p.upperBound last s = .error .noConvergence := by
  rcases exists_of_bind_eq_error hfails with hfails | ⟨bound, _, hfails⟩
  · obtain ⟨cause, hcause, heq⟩ := exists_of_mapError_eq_error hfails
    cases heq
    exact hcause
  cases bound with
  | none => cases hfails
  | some high =>
      rcases exists_of_bind_eq_error hfails with hfails | ⟨found, _, hfails⟩
      · exact absurd hfails (h _ _ _)
      · cases hfails

theorem Converges.rootsFromCritical (h : p.Converges s) {points : List α}
    (hfails : p.rootsFromCritical points s = .error (.unsolvable .noConvergence)) :
    p.OutwardRunsOut s points := by
  rcases exists_of_bind_eq_error hfails with hfails | ⟨left, _, hfails⟩
  · exact .inl (h.rootsLeftOf hfails)
  rcases exists_of_bind_eq_error hfails with hfails | ⟨between, _, hfails⟩
  · exact absurd hfails (h.rootsBetween points)
  rcases exists_of_bind_eq_error hfails with hfails | ⟨right, _, hfails⟩
  · exact .inr (h.rootsFrom hfails)
  · cases hfails

/-- Where searches of intervals converge, solving fails to converge at a search outward, from the
points that the roots of the next derivative divide the line at. -/
theorem exists_outwardRunsOut (hsearch : ∀ q : Polynomial α, 2 ≤ q.degree.toNat → q.Converges s)
    (h : p.solve s = .error (.unsolvable .noConvergence)) :
    ∃ k found, (derivative^[k + 1] p).solve s = .ok found ∧
      (derivative^[k] p).OutwardRunsOut s found.points := by
  induction hd : p.degree.toNat using Nat.strong_induction_on generalizing p with
  | _ d ih =>
      by_cases hcap : s.maxDegree < p.degree
      · rw [solve, if_pos hcap] at h
        cases h
      rcases Nat.lt_or_ge p.degree.toNat 2 with hlow | htwo
      · have hcases : p.degree.toNat = 0 ∨ p.degree.toNat = 1 := by omega
        rcases hcases with hzero | hone
        · rw [solve_of_degree_eq_zero hcap hzero] at h
          cases h
        · rw [solve_of_degree_eq_one hcap hone] at h
          cases h
      · rw [solve_of_two_le_degree hcap htwo] at h
        rcases exists_of_bind_eq_error h with h | ⟨found, hfound, h⟩
        · obtain ⟨k, found, hfound, hfails⟩ :=
            ih _ (hd ▸ degree_derivative_lt (by omega)) h rfl
          exact ⟨k + 1, found, hfound, hfails⟩
        · refine ⟨0, found, hfound, (hsearch p htwo).rootsFromCritical ?_⟩
          cases hroots : p.rootsFromCritical found.points s with
          | ok roots =>
              rw [hroots] at h
              cases h
          | error e =>
              rw [hroots] at h
              rw [Except.error.inj h]

end

/-- With the budget of the standard settings no search of an interval runs out of halvings. -/
theorem converges_of_maxHalvings (hpower : PowerOfUndefined) {p : Polynomial Float}
    (hp : 1 ≤ p.degree.toNat) {s : SolverSettings Float} (hs : UInt64.size ≤ s.maxHalvings) :
    p.Converges s := by
  intro lower upper includeUpper h
  rcases digits_or_bisect_of_findRoot h with hdigits | ⟨_, hnothing⟩
  · cases eq_overflow_of_digits hdigits
  · have hsome := isSome_bisect (isNaN_eval hpower hp) hs lower upper
      (Scalar.half (lower + upper)) (ε := s.epsilon)
    rw [hnothing] at hsome
    cases hsome

/-- **What does not converge.** In binary64 it is a search outward that does not, and never one of
an interval. -/
theorem exists_outwardRunsOut_of_solve (hpower : PowerOfUndefined) {p : Polynomial Float}
    {s : SolverSettings Float} (hs : UInt64.size ≤ s.maxHalvings)
    (h : p.solve s = .error (.unsolvable .noConvergence)) :
    ∃ k found, (derivative^[k + 1] p).solve s = .ok found ∧
      (derivative^[k] p).OutwardRunsOut s found.points :=
  exists_outwardRunsOut
    (fun _ hq => converges_of_maxHalvings hpower (Nat.le_of_succ_le hq) hs) h

end Polynomial

end InkAlgebra

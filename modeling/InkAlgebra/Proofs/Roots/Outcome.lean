import Mathlib
import InkAlgebra.Proofs.Roots.Order
import InkAlgebra.Proofs.Roots.Termination

/-!
# What solving can come to

Which of the first two outcomes solving has, infinitely many roots or a degree beyond the cap, is
decided before anything is computed. Otherwise it comes to a list of roots, which is no longer than
the degree, or to a search that does not converge. The derivatives that are solved on the way have
smaller degrees, so that they pass the cap if the polynomial does and add no failure of another
kind.

One more outcome is left where solving breaks off: a root is rounded to as many places as the
tolerance asks for, and their count may have no room in a word. Of binary64 that is the infinite
tolerance alone, which is not accepted for an equation, but which solving does not ask about.

The count of roots holds for any numbers at all, whatever rounding makes of their values: it counts
places and not roots. `n` dividing points leave `n - 1` places between them and one on either side,
and the last dividing point reports itself only if the place on its right is empty.

§1 is the count, §2 the failures, §3 the outcomes.
-/

open Filter

namespace InkAlgebra.Polynomial

section

variable {α : Type} [Coefficient α] {p : Polynomial α} {s : SolverSettings α}

/-! ## §1  How many roots -/

theorem length_rootsLeftOf_le {first : α} {roots : List α} (h : p.rootsLeftOf s first = .ok roots) :
    roots.length ≤ 1 := by
  obtain ⟨found, rfl⟩ := exists_option_of_rootsLeftOf h
  exact Option.length_toList_le

theorem length_rootsFrom_le {last : α} {before roots : List α}
    (h : p.rootsFrom s last before = .ok roots) :
    roots.length ≤ 1 := by
  obtain ⟨found, rfl⟩ := exists_option_of_rootsFrom h
  exact Option.length_toList_le

theorem length_rootsBetween_le {points roots : List α} (h : p.rootsBetween s points = .ok roots) :
    roots.length ≤ points.length - 1 := by
  induction points generalizing roots with
  | nil =>
      obtain rfl := Except.ok.inj h
      exact Nat.le_refl _
  | cons a rest ih =>
      cases rest with
      | nil =>
          obtain rfl := Except.ok.inj h
          exact Nat.le_refl _
      | cons b rest =>
          obtain ⟨found, more, _, hmore, rfl⟩ := exists_of_rootsBetween_cons h
          have hfound : found.toList.length ≤ 1 := Option.length_toList_le
          have hrest := ih hmore
          simp only [List.length_append, List.length_cons] at hrest ⊢
          omega

/-- One place more than there are dividing points; without any, zero divides the line into two. -/
theorem length_rootsFromCritical_le {points roots : List α}
    (h : p.rootsFromCritical points s = .ok roots) :
    roots.length ≤ max 1 points.length + 1 := by
  obtain ⟨left, hleft, h⟩ := exists_of_bind_eq_ok h
  obtain ⟨between, hbetween, h⟩ := exists_of_bind_eq_ok h
  obtain ⟨right, hright, h⟩ := exists_of_bind_eq_ok h
  obtain rfl := Except.ok.inj h
  have hleft := length_rootsLeftOf_le hleft
  have hbetween := length_rootsBetween_le hbetween
  have hright := length_rootsFrom_le hright
  simp only [List.length_append]
  omega

/-- Between the roots of the derivative there are no more than the degree allows. -/
theorem length_points_le {found : Roots α} (h : p.solve s = .ok found) :
    found.points.length ≤ p.degree.toNat := by
  induction hd : p.degree.toNat using Nat.strong_induction_on generalizing p found with
  | _ d ih =>
      by_cases hcap : s.maxDegree < p.degree
      · rw [solve, if_pos hcap] at h
        cases h
      rcases Nat.lt_or_ge d 2 with hlow | htwo
      · have hcases : d = 0 ∨ d = 1 := by omega
        rcases hcases with rfl | rfl
        · rw [solve_of_degree_eq_zero hcap hd] at h
          obtain rfl := Except.ok.inj h
          split <;> exact Nat.le_refl _
        · rw [solve_of_degree_eq_one hcap hd] at h
          obtain rfl := Except.ok.inj h
          exact Nat.le_refl _
      · subst hd
        obtain ⟨critical, roots, hcritical, hroots, rfl⟩ := exists_of_solve_eq_ok htwo h
        have hless : p.derivative.degree.toNat < p.degree.toNat := degree_derivative_lt (by omega)
        have hpoints : critical.points.length ≤ p.derivative.degree.toNat :=
          ih _ hless hcritical rfl
        have hcount := length_rootsFromCritical_le hroots
        show roots.length ≤ p.degree.toNat
        omega

/-! ## §2  Failures -/

/-- What a search fails with: it does not converge, or there are no places to round a root to. -/
inductive SearchFailure (s : SolverSettings α) : Halt (EquationError α) → Prop
  | noConvergence : SearchFailure s (.unsolvable .noConvergence)
  | overflow : s.digits = .error .overflow → SearchFailure s .overflow

theorem eq_overflow_of_digits {e : Halt (EquationError α)} (h : s.digits = .error e) :
    e = .overflow := by
  unfold SolverSettings.digits at h
  dsimp only at h
  split at h
  · exact (Except.error.inj h).symm
  · cases h

/-- The search of an interval fails where a root cannot be rounded, or where the halvings run
out. -/
theorem digits_or_bisect_of_findRoot {lower upper : α} {includeUpper : Bool}
    {e : Halt (EquationError α)} (h : p.findRoot lower upper includeUpper s = .error e) :
    s.digits = .error e ∨ e = .unsolvable .noConvergence ∧
      p.bisect s.epsilon s.maxHalvings lower upper (Scalar.half (lower + upper)) = none := by
  have hrounded : ∀ x, s.digits.map (fun digits => some (p.roundRoot digits x)) = .error e →
      s.digits = .error e := by
    intro x hx
    cases hdigits : s.digits with
    | error cause =>
        rw [hdigits] at hx
        rw [Except.error.inj hx]
    | ok digits =>
        rw [hdigits] at hx
        cases hx
  unfold findRoot at h
  dsimp only at h
  split at h
  · cases h
  · split at h
    · split at h
      · exact .inl (hrounded _ h)
      · cases h
    · split at h
      · cases h
      · split at h
        · exact .inl (hrounded _ h)
        · rename_i hnothing
          exact .inr ⟨(Except.error.inj h).symm, hnothing⟩

theorem searchFailure_of_findRoot {lower upper : α} {includeUpper : Bool}
    {e : Halt (EquationError α)} (h : p.findRoot lower upper includeUpper s = .error e) :
    SearchFailure s e := by
  rcases digits_or_bisect_of_findRoot h with hdigits | ⟨rfl, _⟩
  · obtain rfl := eq_overflow_of_digits hdigits
    exact .overflow hdigits
  · exact .noConvergence

theorem searchFailure_of_rootsBetween {points : List α} {e : Halt (EquationError α)}
    (h : p.rootsBetween s points = .error e) : SearchFailure s e := by
  induction points with
  | nil => cases h
  | cons a rest ih =>
      cases rest with
      | nil => cases h
      | cons b rest =>
          rw [rootsBetween] at h
          rcases exists_of_bind_eq_error h with h | ⟨found, _, h⟩
          · exact searchFailure_of_findRoot h
          rcases exists_of_bind_eq_error h with h | ⟨more, _, h⟩
          · exact ih h
          · cases h

theorem searchFailure_of_rootsLeftOf {first : α} {e : Halt (EquationError α)}
    (h : p.rootsLeftOf s first = .error e) : SearchFailure s e := by
  rcases exists_of_bind_eq_error h with h | ⟨bound, _, h⟩
  · obtain ⟨cause, hcause, rfl⟩ := exists_of_mapError_eq_error h
    obtain rfl := eq_noConvergence_of_lowerBound hcause
    exact .noConvergence
  cases bound with
  | none => cases h
  | some low =>
      rcases exists_of_bind_eq_error h with h | ⟨found, _, h⟩
      · exact searchFailure_of_findRoot h
      · cases h

theorem searchFailure_of_rootsFrom {last : α} {before : List α} {e : Halt (EquationError α)}
    (h : p.rootsFrom s last before = .error e) : SearchFailure s e := by
  rcases exists_of_bind_eq_error h with h | ⟨bound, _, h⟩
  · obtain ⟨cause, hcause, rfl⟩ := exists_of_mapError_eq_error h
    obtain rfl := eq_noConvergence_of_upperBound hcause
    exact .noConvergence
  cases bound with
  | none => cases h
  | some high =>
      rcases exists_of_bind_eq_error h with h | ⟨found, _, h⟩
      · exact searchFailure_of_findRoot h
      · cases h

theorem searchFailure_of_rootsFromCritical {points : List α} {e : Halt (EquationError α)}
    (h : p.rootsFromCritical points s = .error e) : SearchFailure s e := by
  rcases exists_of_bind_eq_error h with h | ⟨left, _, h⟩
  · exact searchFailure_of_rootsLeftOf h
  rcases exists_of_bind_eq_error h with h | ⟨between, _, h⟩
  · exact searchFailure_of_rootsBetween h
  rcases exists_of_bind_eq_error h with h | ⟨right, _, h⟩
  · exact searchFailure_of_rootsFrom h
  · cases h

/-- Below the cap only searches fail, at the polynomial or at a derivative. -/
theorem searchFailure_of_solve (hcap : p.degree ≤ s.maxDegree) {e : Halt (EquationError α)}
    (h : p.solve s = .error e) : SearchFailure s e := by
  have hfit : ¬ s.maxDegree < p.degree := UInt32.not_lt.2 hcap
  induction hd : p.degree.toNat using Nat.strong_induction_on generalizing p with
  | _ d ih =>
      rcases Nat.lt_or_ge d 2 with hlow | htwo
      · have hcases : d = 0 ∨ d = 1 := by omega
        rcases hcases with rfl | rfl
        · rw [solve_of_degree_eq_zero hfit hd] at h
          cases h
        · rw [solve_of_degree_eq_one hfit hd] at h
          cases h
      · subst hd
        have hderivative : p.derivative.degree ≤ s.maxDegree :=
          UInt32.le_trans (degree_derivative_le p) hcap
        rw [solve_of_two_le_degree hfit htwo] at h
        rcases exists_of_bind_eq_error h with h | ⟨critical, _, h⟩
        · exact ih _ (degree_derivative_lt (by omega)) hderivative h
            (UInt32.not_lt.2 hderivative) rfl
        · cases hroots : p.rootsFromCritical critical.points s with
          | ok roots =>
              rw [hroots] at h
              cases h
          | error cause =>
              rw [hroots] at h
              obtain rfl := Except.error.inj h
              exact searchFailure_of_rootsFromCritical hroots

/-- With places to round to nothing breaks off. -/
theorem solve_ne_overflow {digits : Int32} (hdigits : s.digits = .ok digits) :
    p.solve s ≠ .error .overflow := by
  intro h
  by_cases hcap : s.maxDegree < p.degree
  · rw [solve, if_pos hcap] at h
    cases h
  · cases searchFailure_of_solve (UInt32.not_lt.1 hcap) h with
    | overflow hnone =>
        rw [hdigits] at hnone
        cases hnone

/-! ## §3  Outcomes -/

omit [Coefficient α] in
theorem degree_eq_zero_of_terms_eq_nil (h : p.terms = []) : p.degree = 0 := by
  rw [degree, leading?, h]
  rfl

/-- Nothing is computed for the zero polynomial: no cap is so low that it rules out degree zero. -/
theorem solve_of_terms_eq_nil (h : p.terms = []) : p.solve s = .ok .infinite := by
  have hdegree := degree_eq_zero_of_terms_eq_nil h
  have hfit : ¬ s.maxDegree < p.degree := by
    rw [hdegree]
    exact UInt32.not_lt.2 UInt32.zero_le
  rw [solve_of_degree_eq_zero hfit (by rw [hdegree]; rfl), isZero, h]
  rfl

theorem terms_eq_nil_of_solve_eq_infinite (h : p.solve s = .ok .infinite) : p.terms = [] := by
  by_cases hcap : s.maxDegree < p.degree
  · rw [solve, if_pos hcap] at h
    cases h
  rcases Nat.lt_or_ge p.degree.toNat 2 with hlow | htwo
  · have hcases : p.degree.toNat = 0 ∨ p.degree.toNat = 1 := by omega
    rcases hcases with hzero | hone
    · rw [solve_of_degree_eq_zero hcap hzero] at h
      split at h
      · rename_i hempty
        exact List.isEmpty_iff.1 hempty
      · cases h
    · rw [solve_of_degree_eq_one hcap hone] at h
      cases h
  · obtain ⟨_, _, _, _, hfinite⟩ := exists_of_solve_eq_ok htwo h
    cases hfinite

theorem solve_eq_tooComplex_iff {limit : LimitPassed} : p.solve s = .error (.tooComplex limit) ↔
    s.maxDegree < p.degree ∧ limit = ⟨p.degree.toNat, s.maxDegree.toNat⟩ := by
  constructor
  · intro h
    by_cases hcap : s.maxDegree < p.degree
    · rw [solve, if_pos hcap] at h
      cases h
      exact ⟨hcap, rfl⟩
    · cases searchFailure_of_solve (UInt32.not_lt.1 hcap) h
  · rintro ⟨hcap, rfl⟩
    rw [solve, if_pos hcap]

end

/-- **The outcomes of solving.** For any numbers, any polynomial and any settings: there are
infinitely many roots exactly for the polynomial without terms; the cap is passed exactly by a
degree above it; in all other cases there are no more roots than the degree, or the search did not
converge, or it broke off, which it can only do where the tolerance has no count of places. Each
step down to the derivative makes the degree smaller, and no derivative fails in another way. If no
search of an interval goes on for ever, there is one outcome for all budgets that are large enough,
and a failure to converge is one of a search outward. -/
theorem solve_outcome {α : Type} [Coefficient α] (p : Polynomial α) (s : SolverSettings α) :
    (p.solve s = .ok .infinite ↔ p.terms = []) ∧
      (∀ limit, p.solve s = .error (.tooComplex limit) ↔
        s.maxDegree < p.degree ∧ limit = ⟨p.degree.toNat, s.maxDegree.toNat⟩) ∧
      (p.terms ≠ [] → p.degree ≤ s.maxDegree →
        (∃ roots, p.solve s = .ok (.finite roots) ∧ roots.length ≤ p.degree.toNat) ∨
          (∃ cause, p.solve s = .error (.unsolvable cause) ∧
            ∀ write, cause.reason write = "Root search did not converge") ∨
          p.solve s = .error .overflow ∧ s.digits = .error .overflow) ∧
      (2 ≤ p.degree.toNat → p.degree ≤ s.maxDegree →
        p.derivative.degree.toNat < p.degree.toNat ∧
          p.solve s = p.derivative.solve s >>= fun critical =>
            (p.rootsFromCritical critical.points s).map .finite) ∧
      (p.degree ≤ s.maxDegree → ∀ k e, (derivative^[k] p).solve s = .error e →
        e = .unsolvable .noConvergence ∨ e = .overflow ∧ s.digits = .error .overflow) ∧
      ((∀ k, (derivative^[k] p).SearchesEnd s) →
        ∃ outcome, (∀ᶠ n in atTop, p.solve { s with maxHalvings := n } = outcome) ∧
          (outcome = .error (.unsolvable .noConvergence) → ∃ k found,
            (∀ᶠ n in atTop, (derivative^[k + 1] p).solve { s with maxHalvings := n } = .ok found) ∧
              ((derivative^[k] p).lowerBound (found.points.head?.getD 0) s = .error .noConvergence ∨
                (derivative^[k] p).upperBound (found.points.getLast?.getD 0) s =
                  .error .noConvergence))) := by
  refine ⟨⟨terms_eq_nil_of_solve_eq_infinite, solve_of_terms_eq_nil⟩,
    fun limit => solve_eq_tooComplex_iff, ?_, ?_, ?_, ?_⟩
  · intro hterms hcap
    cases hsolve : p.solve s with
    | error e =>
        cases searchFailure_of_solve hcap hsolve with
        | noConvergence => exact .inr (.inl ⟨.noConvergence, rfl, fun write => rfl⟩)
        | overflow hdigits => exact .inr (.inr ⟨rfl, hdigits⟩)
    | ok found =>
        cases found with
        | infinite => exact absurd (terms_eq_nil_of_solve_eq_infinite hsolve) hterms
        | finite roots => exact .inl ⟨roots, rfl, length_points_le hsolve⟩
  · intro htwo hcap
    exact ⟨degree_derivative_lt (by omega), solve_of_two_le_degree (UInt32.not_lt.2 hcap) htwo⟩
  · intro hcap k e h
    cases searchFailure_of_solve (UInt32.le_trans (degree_iterate_derivative_le p k) hcap) h with
    | noConvergence => exact .inl rfl
    | overflow hdigits => exact .inr ⟨rfl, hdigits⟩
  · intro hsearch
    by_cases hcap : s.maxDegree < p.degree
    · refine ⟨.error (.tooComplex ⟨p.degree.toNat, s.maxDegree.toNat⟩),
        Eventually.of_forall ?_, nofun⟩
      intro n
      exact solve_eq_tooComplex_iff.2 ⟨hcap, rfl⟩
    · obtain ⟨outcome, hoften, hfails⟩ :=
        settles_solve_of_searchesEnd hsearch (UInt32.not_lt.1 hcap)
      exact ⟨outcome, hoften, fun he => (hfails _ he).2⟩

open Exact in
/-- A cubic, in exact arithmetic, where every search of an interval ends. -/
theorem threeRoots_outcome :
    threeRoots.terms ≠ [] ∧ 2 ≤ threeRoots.degree.toNat ∧
      threeRoots.degree ≤ (SolverSettings.standard : SolverSettings ℚ).maxDegree ∧
      (∀ k, (derivative^[k] threeRoots).SearchesEnd .standard) ∧
      ((∃ roots, threeRoots.solve .standard = .ok (.finite roots) ∧
          roots.length ≤ threeRoots.degree.toNat) ∨
        (∃ cause, threeRoots.solve .standard = .error (.unsolvable cause) ∧
          ∀ write, cause.reason write = "Root search did not converge") ∨
        threeRoots.solve .standard = .error .overflow ∧
          (SolverSettings.standard : SolverSettings ℚ).digits = .error .overflow) ∧
      threeRoots.derivative.degree.toNat < threeRoots.degree.toNat ∧
      ∃ outcome, ∀ᶠ n in atTop,
        threeRoots.solve { SolverSettings.standard with maxHalvings := n } = outcome := by
  have hterms : threeRoots.terms ≠ [] := by decide +kernel
  have htwo : 2 ≤ threeRoots.degree.toNat := by decide +kernel
  have hcap : threeRoots.degree ≤ (SolverSettings.standard : SolverSettings ℚ).maxDegree := by
    decide +kernel
  have hs : (SolverSettings.standard : SolverSettings ℚ).validate = .ok () := by decide +kernel
  have hsearch : ∀ k, (derivative^[k] threeRoots).SearchesEnd .standard :=
    fun _ => searchesEnd_of_validate _ hs
  obtain ⟨_, _, hlist, hstep, _, hsettles⟩ := solve_outcome threeRoots .standard
  obtain ⟨outcome, hoften, _⟩ := hsettles hsearch
  exact ⟨hterms, htwo, hcap, hsearch, hlist hterms hcap, (hstep htwo hcap).1, outcome, hoften⟩

/-- Where its derivative is zero, both terms are beyond the range of numbers, one on either side. -/
def clashing : Polynomial Float := ofTerms [(1, .ofNat (2 ^ 601)), (2, .ofNat (2 ^ 100))]

/-- Of a value that is no number it cannot be said that it counts as zero, not even with an infinite
tolerance. So the point is closed in on, and there are no places to round it to. -/
theorem clashing_breaks_off :
    clashing.terms ≠ [] ∧ clashing.degree ≤ (256 : UInt32) ∧
      clashing.solve { epsilon := Coefficient.infinity } = .error .overflow := by
  refine ⟨?_, ?_, ?_⟩
  all_goals decide +kernel

end InkAlgebra.Polynomial

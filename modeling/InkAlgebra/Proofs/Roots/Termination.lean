import Mathlib
import InkAlgebra.Proofs.Roots.Bisection
import InkAlgebra.Roots.Solve

/-!
# The search ends, at roots

Two properties of what solving comes to in exact arithmetic. It comes to something: no search of an
interval goes on for ever, and from some budget of halvings on a larger one makes no difference, so
that the budget stands for none at all. Solving may still fail, but only where one of the two
searches on unbounded sides is out of moves. And every root that is reported has a value that counts
as zero, on whichever of the paths it was found.

What an outcome does not depend on is said with `∀ᶠ n in atTop`: for all sufficiently large budgets.

§1 is the value of what is reported, §2 what computations settle on, §3 solving.
-/

open Filter Polynomial

namespace InkAlgebra.Polynomial

open Exact

variable {K : Type} [Field K] [LinearOrder K] [IsStrictOrderedRing K] [FloorRing K]

/-! ## §1  Values at roots -/

section

variable {p : Polynomial K} {s : SolverSettings K}

theorem Finds.abs_eval_le {includeUpper : Bool} {lower upper : K} {found : Option K}
    (h : p.Finds s includeUpper lower upper found) :
    ∀ r ∈ found.toList, |p.eval r| ≤ s.epsilon := by
  intro r hr
  cases h with
  | atLower hvalue =>
      obtain rfl := List.mem_singleton.1 hr
      exact hvalue
  | atUpper hvalue _ _ =>
      obtain rfl := List.mem_singleton.1 hr
      exact (p.abs_eval_roundRoot_le _ _).trans hvalue
  | leftToNext => cases hr
  | sameSign => cases hr
  | inside _ hvalue _ =>
      obtain rfl := List.mem_singleton.1 hr
      exact (p.abs_eval_roundRoot_le _ _).trans hvalue

theorem abs_eval_le_of_rootsLeftOf {first : K} {roots : List K} (hε : 0 ≤ s.epsilon)
    (h : p.rootsLeftOf s first = .ok roots) : ∀ r ∈ roots, |p.eval r| ≤ s.epsilon := by
  obtain ⟨bound, _, h⟩ := exists_of_bind_eq_ok h
  cases bound with
  | none =>
      obtain rfl := Except.ok.inj h
      simp
  | some low =>
      obtain ⟨found, hfound, h⟩ := exists_of_bind_eq_ok h
      obtain rfl := Except.ok.inj h
      exact (finds_of_findRoot hε hfound).abs_eval_le

theorem abs_eval_le_of_rootsBetween {points roots : List K} (hε : 0 ≤ s.epsilon)
    (h : p.rootsBetween s points = .ok roots) : ∀ r ∈ roots, |p.eval r| ≤ s.epsilon := by
  induction points generalizing roots with
  | nil =>
      obtain rfl := Except.ok.inj h
      simp
  | cons a rest ih =>
      cases rest with
      | nil =>
          obtain rfl := Except.ok.inj h
          simp
      | cons b rest =>
          obtain ⟨found, more, hfound, hmore, rfl⟩ := exists_of_rootsBetween_cons h
          intro r hr
          rcases List.mem_append.1 hr with hr | hr
          · exact (finds_of_findRoot hε hfound).abs_eval_le r hr
          · exact ih hmore r hr

theorem abs_eval_le_of_rootsFrom {last : K} {before roots : List K} (hε : 0 ≤ s.epsilon)
    (h : p.rootsFrom s last before = .ok roots) : ∀ r ∈ roots, |p.eval r| ≤ s.epsilon := by
  obtain ⟨bound, _, h⟩ := exists_of_bind_eq_ok h
  cases bound with
  | none =>
      -- the last dividing point reports itself only if its value counts as zero
      obtain rfl := Except.ok.inj h
      intro r hr
      rw [List.mem_ite_nil_right, scalarAbs_eq_abs] at hr
      obtain ⟨⟨hlast, _⟩, hr⟩ := hr
      obtain rfl := List.mem_singleton.1 hr
      exact hlast
  | some high =>
      obtain ⟨found, hfound, h⟩ := exists_of_bind_eq_ok h
      obtain rfl := Except.ok.inj h
      exact (finds_of_findRoot hε hfound).abs_eval_le

theorem abs_eval_le_of_rootsFromCritical {points roots : List K} (hε : 0 ≤ s.epsilon)
    (h : p.rootsFromCritical points s = .ok roots) : ∀ r ∈ roots, |p.eval r| ≤ s.epsilon := by
  obtain ⟨left, hleft, h⟩ := exists_of_bind_eq_ok h
  obtain ⟨between, hbetween, h⟩ := exists_of_bind_eq_ok h
  obtain ⟨right, hright, h⟩ := exists_of_bind_eq_ok h
  obtain rfl := Except.ok.inj h
  intro r hr
  rcases List.mem_append.1 hr with hr | hr
  · rcases List.mem_append.1 hr with hr | hr
    · exact abs_eval_le_of_rootsLeftOf hε hleft r hr
    · exact abs_eval_le_of_rootsBetween hε hbetween r hr
  · exact abs_eval_le_of_rootsFrom hε hright r hr

/-- The closed form at degree one is a root, for the leading coefficient is not zero. -/
theorem eval_root_of_degree_eq_one (hp : ∀ t ∈ p.terms, t.2 ≠ 0) (h : p.degree.toNat = 1) :
    p.eval (-p.coefficient 0 / p.coefficient 1) = 0 := by
  have hdenotes : Denotes p (formalSum p.terms) := ⟨rfl, hp⟩
  have hdegree : (formalSum p.terms).natDegree = 1 := by rw [← hdenotes.natDegree, h]
  have hlead : p.coefficient 1 ≠ 0 := by
    rw [hdenotes.coefficient 1]
    show (formalSum p.terms).coeff 1 ≠ 0
    rw [← hdegree]
    refine leadingCoeff_ne_zero.2 ?_
    rintro hzero
    rw [hzero] at hdegree
    cases hdegree
  have hvalue : ∀ x, p.eval x = p.coefficient 1 * x + p.coefficient 0 := by
    intro x
    rw [eval_eq_eval_formalSum, hdenotes.coefficient 1, hdenotes.coefficient 0]
    conv_lhs => rw [eq_X_add_C_of_natDegree_le_one hdegree.le]
    simp
  rw [hvalue, mul_div_cancel₀ _ hlead]
  ring

end

/-! ## §2  What computations settle on -/

section

variable {ε α β : Type}

/-- A computation settles if its outcome is the same for all sufficiently large budgets; if that
outcome is a failure, it is one of the given ones. -/
def Settles (f : ℕ → Except ε α) (fails : ε → Prop) : Prop :=
  ∃ outcome, (∀ᶠ n in atTop, f n = outcome) ∧ ∀ e, outcome = .error e → fails e

namespace Settles

variable {f : ℕ → Except ε α} {fails : ε → Prop}

/-- What needs no budget has settled. -/
theorem const {x : Except ε α} (h : ∀ e, x = .error e → fails e) : Settles (fun _ => x) fails :=
  ⟨x, Eventually.of_forall fun _ => rfl, h⟩

theorem ok (a : α) : Settles (fun _ => (.ok a : Except ε α)) fails := const (by simp)

theorem mono {fails' : ε → Prop} (hf : Settles f fails) (h : ∀ e, fails e → fails' e) :
    Settles f fails' := by
  obtain ⟨outcome, hevent, hfails⟩ := hf
  exact ⟨outcome, hevent, fun e he => h e (hfails e he)⟩

/-- Two steps settle if the first does and the second does on what the first settles on. -/
theorem bind {g : ℕ → α → Except ε β} (hf : Settles f fails)
    (hg : ∀ a, (∀ᶠ n in atTop, f n = .ok a) → Settles (fun n => g n a) fails) :
    Settles (fun n => f n >>= g n) fails := by
  obtain ⟨outcome, hevent, hfails⟩ := hf
  cases outcome with
  | error e =>
      refine ⟨.error e, ?_, ?_⟩
      · filter_upwards [hevent] with n hn
        rw [hn]
        rfl
      · intro e' he
        obtain rfl := Except.error.inj he
        exact hfails e rfl
  | ok a =>
      obtain ⟨outcome, hsecond, hfails⟩ := hg a hevent
      refine ⟨outcome, ?_, hfails⟩
      filter_upwards [hevent, hsecond] with n hn hn'
      rw [hn]
      exact hn'

theorem map (g : α → β) (hf : Settles f fails) : Settles (fun n => (f n).map g) fails := by
  obtain ⟨outcome, hevent, hfails⟩ := hf
  refine ⟨outcome.map g, ?_, ?_⟩
  · filter_upwards [hevent] with n hn
    rw [hn]
  · intro e he
    cases outcome with
    | error e' => exact hfails e (Except.error.inj he ▸ rfl)
    | ok a => cases he

end Settles

end

/-! ## §3  Solving -/

/-- Whether one of the two searches outward from dividing points runs out of moves. -/
def OutwardFails (p : Polynomial K) (s : SolverSettings K) (points : List K) : Prop :=
  p.lowerBound (points.head?.getD 0) s = .error .noConvergence ∨
    p.upperBound (points.getLast?.getD 0) s = .error .noConvergence

/-- Whether solving gives up: at some derivative a search outward fails, from the points that the
roots of the next derivative divide the line at. -/
def GivesUp (p : Polynomial K) (s : SolverSettings K) : Prop :=
  ∃ k found, (∀ᶠ n in atTop, (derivative^[k + 1] p).solve { s with maxHalvings := n } = .ok found) ∧
    (derivative^[k] p).OutwardFails s found.points

section

variable {α : Type} [Coefficient α]

/-- Whether the search of an interval always ends with an answer, whatever the ends of the interval
are. -/
def SearchesEnd (p : Polynomial α) (s : SolverSettings α) : Prop :=
  ∀ lower upper includeUpper, ∃ found,
    ∀ᶠ n in atTop, p.findRoot lower upper includeUpper { s with maxHalvings := n } = .ok found

variable {p : Polynomial α} {s : SolverSettings α}

theorem SearchesEnd.settles (h : p.SearchesEnd s) (lower upper : α) (includeUpper : Bool)
    {fails : Halt (EquationError α) → Prop} :
    Settles (fun n => p.findRoot lower upper includeUpper { s with maxHalvings := n }) fails := by
  obtain ⟨found, hfound⟩ := h lower upper includeUpper
  exact ⟨.ok found, hfound, by simp⟩

theorem settles_rootsBetween (hsearch : p.SearchesEnd s) (points : List α)
    {fails : Halt (EquationError α) → Prop} :
    Settles (fun n => p.rootsBetween { s with maxHalvings := n } points) fails := by
  induction points with
  | nil => exact .ok []
  | cons a rest ih =>
      cases rest with
      | nil => exact .ok []
      | cons b rest =>
          refine (hsearch.settles a b false).bind ?_
          intro found _
          refine ih.bind ?_
          intro more _
          exact .ok (found.toList ++ more)

theorem settles_rootsLeftOf (hsearch : p.SearchesEnd s) (first : α) :
    Settles (fun n => p.rootsLeftOf { s with maxHalvings := n } first)
      (fun e => ∃ cause, p.lowerBound first s = .error cause ∧ e = .unsolvable cause) := by
  -- how far to go out does not depend on the budget
  have hbound : Settles (fun _ => (p.lowerBound first s).mapError Halt.unsolvable)
      (fun e => ∃ cause, p.lowerBound first s = .error cause ∧ e = .unsolvable cause) :=
    .const fun _ => exists_of_mapError_eq_error
  refine hbound.bind ?_
  intro bound _
  cases bound with
  | none => exact .ok []
  | some low =>
      refine (hsearch.settles low first false).bind ?_
      intro found _
      exact .ok found.toList

theorem settles_rootsFrom (hsearch : p.SearchesEnd s) (last : α) (before : List α) :
    Settles (fun n => p.rootsFrom { s with maxHalvings := n } last before)
      (fun e => ∃ cause, p.upperBound last s = .error cause ∧ e = .unsolvable cause) := by
  have hbound : Settles (fun _ => (p.upperBound last s).mapError Halt.unsolvable)
      (fun e => ∃ cause, p.upperBound last s = .error cause ∧ e = .unsolvable cause) :=
    .const fun _ => exists_of_mapError_eq_error
  refine hbound.bind ?_
  intro bound _
  cases bound with
  | none =>
      exact .ok (if Scalar.abs (p.eval last) ≤ s.epsilon ∧
        before.getLast?.all (fun root => !(root == last)) then [last] else [])
  | some high =>
      refine (hsearch.settles last high true).bind ?_
      intro found _
      exact .ok found.toList

theorem settles_rootsFromCritical (hsearch : p.SearchesEnd s) (points : List α) :
    Settles (fun n => p.rootsFromCritical points { s with maxHalvings := n })
      (fun e => e = .unsolvable .noConvergence ∧
        (p.lowerBound (points.head?.getD 0) s = .error .noConvergence ∨
        p.upperBound (points.getLast?.getD 0) s = .error .noConvergence)) := by
  refine ((settles_rootsLeftOf hsearch _).mono ?_).bind ?_
  · rintro e ⟨cause, hcause, rfl⟩
    obtain rfl := eq_noConvergence_of_lowerBound hcause
    exact ⟨rfl, .inl hcause⟩
  intro left _
  refine (settles_rootsBetween hsearch points).bind ?_
  intro between _
  refine ((settles_rootsFrom hsearch _ _).mono ?_).bind ?_
  · rintro e ⟨cause, hcause, rfl⟩
    obtain rfl := eq_noConvergence_of_upperBound hcause
    exact ⟨rfl, .inr hcause⟩
  intro right _
  exact .ok (left ++ between ++ right)

/-- Solving settles, one derivative after the other, if no search of an interval goes on for ever.
It fails only where a search outward does, from the points that the roots of the next derivative
divide the line at. -/
theorem settles_solve_of_searchesEnd (hsearch : ∀ k, (derivative^[k] p).SearchesEnd s)
    (hcap : p.degree ≤ s.maxDegree) :
    Settles (fun n => p.solve { s with maxHalvings := n })
      (fun e => e = .unsolvable .noConvergence ∧ ∃ k found,
        (∀ᶠ n in atTop, (derivative^[k + 1] p).solve { s with maxHalvings := n } = .ok found) ∧
          ((derivative^[k] p).lowerBound (found.points.head?.getD 0) s = .error .noConvergence ∨
            (derivative^[k] p).upperBound (found.points.getLast?.getD 0) s =
                .error .noConvergence)) := by
  induction hd : p.degree.toNat using Nat.strong_induction_on generalizing p with
  | _ d ih =>
      have hfit : ∀ n, ¬ ({ s with maxHalvings := n } : SolverSettings α).maxDegree <
          p.degree := fun _ =>
        UInt32.not_lt.2 hcap
      rcases Nat.lt_or_ge d 2 with hlow | htwo
      · have hcases : p.degree.toNat = 0 ∨ p.degree.toNat = 1 := by omega
        rcases hcases with hzero | hone
        · simp only [solve_of_degree_eq_zero (hfit _) hzero]
          exact .ok _
        · simp only [solve_of_degree_eq_one (hfit _) hone]
          exact .ok _
      · simp only [solve_of_two_le_degree (hfit _) (hd ▸ htwo)]
        have hless : p.derivative.degree.toNat < d := hd ▸ degree_derivative_lt (by omega)
        have hderivative : p.derivative.degree ≤ s.maxDegree :=
          UInt32.le_trans (degree_derivative_le p) hcap
        have hsearch' : ∀ k, (derivative^[k] p.derivative).SearchesEnd s := fun k => hsearch (k + 1)
        refine ((ih _ hless hsearch' hderivative rfl).mono ?_).bind ?_
        · rintro e ⟨he, k, found, hfound, hfails⟩
          exact ⟨he, k + 1, found, hfound, hfails⟩
        · intro found hfound
          refine ((settles_rootsFromCritical (hsearch 0) found.points).map _).mono ?_
          rintro e ⟨rfl, hfails⟩
          exact ⟨rfl, 0, found, hfound, hfails⟩

end

/-- In exact arithmetic the precision asked for is reached. -/
theorem searchesEnd_of_validate (p : Polynomial K) {s : SolverSettings K}
    (hs : s.validate = .ok ()) :
    p.SearchesEnd s := by
  obtain ⟨digits, hdigits⟩ := SolverSettings.exists_digits_of_validate hs
  obtain ⟨hε, _⟩ := SolverSettings.epsilon_of_validate hs
  intro lower upper includeUpper
  obtain ⟨enough, found, h⟩ := exists_findRoot hε hdigits p lower upper includeUpper
  exact ⟨found, eventually_atTop.2 ⟨enough, h⟩⟩

theorem settles_solve (p : Polynomial K) {s : SolverSettings K} (hs : s.validate = .ok ())
    (hcap : p.degree ≤ s.maxDegree) :
    Settles (fun n => p.solve { s with maxHalvings := n })
      (fun e => e = .unsolvable .noConvergence ∧ p.GivesUp s) :=
  settles_solve_of_searchesEnd (fun _ => searchesEnd_of_validate _ hs) hcap

theorem abs_eval_le_of_solve {p : Polynomial K} {s : SolverSettings K} (hε : 0 ≤ s.epsilon)
    (hp : ∀ t ∈ p.terms, t.2 ≠ 0) (hcap : p.degree ≤ s.maxDegree) {roots : List K}
    (h : p.solve s = .ok (.finite roots)) : ∀ r ∈ roots, |p.eval r| ≤ s.epsilon := by
  have hfit : ¬ s.maxDegree < p.degree := UInt32.not_lt.2 hcap
  rcases Nat.lt_or_ge p.degree.toNat 2 with hlow | htwo
  · have hcases : p.degree.toNat = 0 ∨ p.degree.toNat = 1 := by omega
    rcases hcases with hzero | hone
    · rw [solve_of_degree_eq_zero hfit hzero] at h
      split at h
      · cases h
      · cases h
        simp
    · rw [solve_of_degree_eq_one hfit hone] at h
      cases h
      intro r hr
      obtain rfl := List.mem_singleton.1 hr
      rwa [eval_root_of_degree_eq_one hp hone, abs_zero]
  · obtain ⟨critical, found, _, hfound, hroots⟩ := exists_of_solve_eq_ok htwo h
    cases hroots
    exact abs_eval_le_of_rootsFromCritical hε hfound

/-- **The search ends, at roots.** For a polynomial that stores no zero, as all do that are made of
terms, and with settings that are accepted: every search of an interval ends, whatever its ends are;
solving ends with what no larger budget changes, and fails only because a search outward gives up;
and every root that is reported, on whatever budget, has a value that counts as zero. -/
theorem solve_settles_at_roots {p : Polynomial K} {s : SolverSettings K}
    (hp : ∀ t ∈ p.terms, t.2 ≠ 0) (hs : s.validate = .ok ()) (hcap : p.degree ≤ s.maxDegree) :
    (∀ (q : Polynomial K) (lower upper : K) (includeUpper : Bool), ∃ found,
        ∀ᶠ n in atTop, q.findRoot lower upper includeUpper
          { s with maxHalvings := n } = .ok found) ∧
      (∃ outcome, (∀ᶠ n in atTop, p.solve { s with maxHalvings := n } = outcome) ∧
        ∀ e, outcome = .error e → e = .unsolvable .noConvergence ∧ p.GivesUp s) ∧
      ∀ n roots, p.solve { s with maxHalvings := n } = .ok (.finite roots) →
        ∀ r ∈ roots, |p.eval r| ≤ s.epsilon := by
  obtain ⟨hε, _⟩ := SolverSettings.epsilon_of_validate hs
  refine ⟨fun q => searchesEnd_of_validate q hs, p.settles_solve hs hcap, ?_⟩
  · intro n roots h
    exact abs_eval_le_of_solve (s := { s with maxHalvings := n }) hε.le hp hcap h

/-- A cubic with three roots between which the dividing points are irrational. -/
def threeRoots : InkAlgebra.Polynomial ℚ := ofTerms [(1, -2), (3, 1)]

/-- The dividing points are found up to the precision only, and so are the outer roots. -/
theorem threeRoots_settles_at_roots :
    (∀ t ∈ threeRoots.terms, t.2 ≠ 0) ∧
      (SolverSettings.standard : SolverSettings ℚ).validate = .ok () ∧
      threeRoots.degree ≤ (SolverSettings.standard : SolverSettings ℚ).maxDegree ∧
      threeRoots.solve .standard = .ok (.finite [-46341 / 32768, 0, 46341 / 32768]) ∧
      (∀ (q : InkAlgebra.Polynomial ℚ) (lower upper : ℚ) (includeUpper : Bool),
        ∃ found, ∀ᶠ n in atTop, q.findRoot lower upper includeUpper
          { SolverSettings.standard with maxHalvings := n } = .ok found) ∧
      (∃ outcome, (∀ᶠ n in atTop, threeRoots.solve
        { SolverSettings.standard with maxHalvings := n } = outcome) ∧
        ∀ e, outcome = .error e → e = .unsolvable .noConvergence ∧ threeRoots.GivesUp .standard) ∧
      ∀ r ∈ [-46341 / 32768, 0, (46341 / 32768 : ℚ)],
        |threeRoots.eval r| ≤ (SolverSettings.standard : SolverSettings ℚ).epsilon := by
  have hterms : ∀ t ∈ threeRoots.terms, t.2 ≠ 0 := (denotes_ofTerms _).ne_zero
  have hs : (SolverSettings.standard : SolverSettings ℚ).validate = .ok () := by decide +kernel
  have hcap : threeRoots.degree ≤ (SolverSettings.standard : SolverSettings ℚ).maxDegree := by
    decide +kernel
  have hroots : threeRoots.solve .standard = .ok (.finite [-46341 / 32768, 0, 46341 / 32768]) := by
    decide +kernel
  obtain ⟨hintervals, hsettles, hvalues⟩ := solve_settles_at_roots hterms hs hcap
  exact ⟨hterms, hs, hcap, hroots, hintervals, hsettles, hvalues _ _ hroots⟩

end InkAlgebra.Polynomial

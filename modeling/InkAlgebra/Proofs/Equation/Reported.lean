import Mathlib
import InkAlgebra.Equation
import InkAlgebra.Proofs.Number.Places
import InkAlgebra.Proofs.Roots.Precision

/-!
# Roots that are reported

Roots are rounded once more before they are reported, to as many places as the tolerance asks for. A
tolerance of which nothing is known but that it is between zero and one may ask for up to 323
places, and at least for tens. A root that is found as a finite number is reported as one if and
only if there is room for it in units of the last place; from 309 places on there is room for none.
-/

namespace InkAlgebra

open Binary64 (isFinite_add_zero isFinite_mul_eq_false isFinite_roundTo isFinite_tenPower_eq_false)

/-- The roots as they are found. -/
def foundRoots {α : Type} [Coefficient α] (s : SolverSettings α) (text : List Char) :
    Except (Halt (EquationError α)) (Roots α) := do
  (← equationPolynomial s.maxDegree text).solve s

theorem solveEquation_of_found {α : Type} [Coefficient α] {s : SolverSettings α} {text : List Char}
    {found : Roots α} {digits : Int32} (hvalid : s.validate = .ok ())
    (hdigits : s.digits = .ok digits) (hfound : foundRoots s text = .ok found) :
    solveEquation s text = .ok (found.rounded digits) := by
  obtain ⟨p, hp, hsolve⟩ := exists_of_bind_eq_ok hfound
  rw [solveEquation, hvalid, hp]
  show p.solve s >>= _ = _
  rw [hsolve, hdigits]
  rfl

/-- **Roots that stay finite.** Of each root that is found as a finite number it is the root in
units of the last place that decides whether it is reported as one, and from 309 places on none
is. -/
theorem reportedRoots_finite {s : SolverSettings Float} (hvalid : s.validate = .ok ())
    {text : List Char} {roots : List Float} (hfound : foundRoots s text = .ok (.finite roots))
    (hfinite : ∀ x ∈ roots, x.isFinite = true) :
    ∃ digits reported, s.digits = .ok digits ∧ solveEquation s text = .ok (.finite reported) ∧
      List.Forall₂ (fun x y => y.isFinite = (x * Coefficient.tenPower digits).isFinite)
        roots reported ∧
      (308 < digits.toInt → ∀ y ∈ reported, y.isFinite = false) := by
  obtain ⟨digits, hdigits⟩ := SolverSettings.exists_digits_of_validate hvalid
  obtain ⟨hlow, hhigh⟩ := SolverSettings.digits_bounds hvalid hdigits
  have hreported : ∀ x ∈ roots, (Coefficient.roundTo digits x + 0).isFinite =
      (x * Coefficient.tenPower digits).isFinite := by
    intro x hx
    rw [isFinite_add_zero, isFinite_roundTo (hfinite x hx) hlow]
  refine ⟨digits, _, hdigits, solveEquation_of_found hvalid hdigits hfound, ?_, ?_⟩
  · rw [List.forall₂_map_right_iff, List.forall₂_same]
    exact hreported
  · intro hmany y hy
    obtain ⟨x, hx, rfl⟩ := List.mem_map.1 hy
    rw [hreported x hx]
    exact isFinite_mul_eq_false x (isFinite_tenPower_eq_false hmany hhigh)

/-- The default tolerance asks for four places. -/
theorem threeHalves_reported :
    foundRoots (.standard : SolverSettings Float) "2*x-3".toList = .ok (.finite [1.5]) ∧
    ∃ digits reported, (SolverSettings.standard : SolverSettings Float).digits = .ok digits ∧
      solveEquation (.standard : SolverSettings Float) "2*x-3".toList = .ok (.finite reported) ∧
      List.Forall₂ (fun x y => y.isFinite = (x * Coefficient.tenPower digits).isFinite)
        [1.5] reported ∧
      (308 < digits.toInt → ∀ y ∈ reported, y.isFinite = false) := by
  have hfound : foundRoots (.standard : SolverSettings Float) "2*x-3".toList =
      .ok (.finite [1.5]) :=
    eq_ok_of_toOption (by decide +kernel)
  exact ⟨hfound, reportedRoots_finite SolverSettings.validate_standard hfound (by decide +kernel)⟩

/-- The least number for a tolerance. -/
def leastTolerance : SolverSettings Float := { epsilon := Coefficient.ofDecimal 5 (-324) }

/-- With the least number for a tolerance the root of `x` is lost, and with the default one a large
root is. -/
theorem roundedRoots_lost :
    (leastTolerance.validate = .ok () ∧ foundRoots leastTolerance "x".toList = .ok (.finite [-0]) ∧
      (-0 : Float).isFinite = true ∧
      solveEquation leastTolerance "x".toList = .ok (.finite [Coefficient.undefined]) ∧
      (Coefficient.undefined : Float).isFinite = false) ∧
    (SolverSettings.standard : SolverSettings Float).validate = .ok () ∧
      foundRoots (.standard : SolverSettings Float) ("x-1".toList ++ List.replicate 305 '0') =
        .ok (.finite [Coefficient.ofDecimal 1 305]) ∧
      (Coefficient.ofDecimal 1 305 : Float).isFinite = true ∧
      solveEquation (.standard : SolverSettings Float) ("x-1".toList ++ List.replicate 305 '0') =
        .ok (.finite [Coefficient.infinity]) ∧
      (Coefficient.infinity : Float).isFinite = false := by
  refine ⟨⟨if_pos (by decide +kernel), eq_ok_of_toOption ?_, ?_, eq_ok_of_toOption ?_, ?_⟩,
    SolverSettings.validate_standard, eq_ok_of_toOption ?_, ?_, eq_ok_of_toOption ?_, ?_⟩
  all_goals decide +kernel

end InkAlgebra

import Mathlib
import InkAlgebra.Proofs.Number.Laws
import InkAlgebra.Roots.Settings

/-!
# Places to round to

The tolerance says to how many places roots are rounded. What is accepted as one lies between zero
and one, and all of these have a count of decades that leaves room for one fewer. In binary64 the
count then is between -1 and 323, and it is for an infinite tolerance alone that there is none.
-/

namespace InkAlgebra.SolverSettings

/-! ## §1  Accepted settings -/

section

variable {α : Type} [Coefficient α] {s : SolverSettings α}

theorem epsilon_of_validate (h : s.validate = .ok ()) : 0 < s.epsilon ∧ s.epsilon < 1 := by
  unfold validate at h
  split at h
  · rename_i hrange
    exact hrange
  · cases h

/-- With settings that are accepted there are places to round to. -/
theorem exists_digits_of_validate [LawfulDecades α] (h : s.validate = .ok ()) :
    ∃ digits, s.digits = .ok digits := by
  obtain ⟨hpos, hone⟩ := epsilon_of_validate h
  exact ⟨_, if_neg (LawfulDecades.decades_ne_minValue hpos hone)⟩

end

/-! ## §2  Binary64 -/

section

variable {s : SolverSettings Float}

/-- An accepted tolerance asks for tens at least, and for no more places than the least number
has. -/
theorem digits_bounds {digits : Int32} (hvalid : s.validate = .ok ())
    (hdigits : s.digits = .ok digits) : -1 ≤ digits.toInt ∧ digits.toInt ≤ 323 := by
  obtain ⟨hpos, hone⟩ := epsilon_of_validate hvalid
  obtain ⟨hlow, hhigh⟩ := Binary64.decades_bounds hpos hone
  unfold SolverSettings.digits at hdigits
  dsimp only at hdigits
  split at hdigits
  · cases hdigits
  · rw [← Except.ok.inj hdigits]
    have hless : (Binary64.decades s.epsilon - 1).toInt =
        (Binary64.decades s.epsilon).toInt - 1 := by
      rw [Int32.toInt_sub, Int32.toInt_one]
      exact Int.bmod_eq_of_le (by omega) (by omega)
    show -1 ≤ (Binary64.decades s.epsilon - 1).toInt ∧ (Binary64.decades s.epsilon - 1).toInt ≤ 323
    omega

/-- There are no places to round to for an infinite tolerance, and for no other one. -/
theorem digits_eq_overflow_iff :
    s.digits = .error .overflow ↔ 0 < s.epsilon ∧ s.epsilon.isInf = true := by
  rw [← Binary64.decades_eq_minValue_iff, digits]
  constructor
  · intro h
    split at h
    · assumption
    · cases h
  · exact fun h => if_pos h

theorem validate_standard : (.standard : SolverSettings Float).validate = .ok () :=
  if_pos (by decide +kernel)

end

end InkAlgebra.SolverSettings

import Mathlib
import InkAlgebra.Number.Binary64

/-!
# The order of binary64

A number that is none compares with nothing. All others have a place on one line, on which the two
zeros share theirs, and compare as their places do; the laws of the order are those of the line.
-/

namespace InkAlgebra

namespace Binary64

open Float.Model (UnpackedFloat)

/-- Where a number stands: first by kind, from one infinity to the other, then by exponent and
significand. Zeros of both signs stand in one place. -/
def place : UnpackedFloat → Option (ℤ ×ₗ ℤ ×ₗ ℤ)
  | .notANumber => none
  | .infinity .negative => some (toLex (-2, toLex (0, 0)))
  | .finite .negative m e _ => some (toLex (-1, toLex (-e, -m)))
  | .zero _ => some (toLex (0, toLex (0, 0)))
  | .finite .positive m e _ => some (toLex (1, toLex (e, m)))
  | .infinity .positive => some (toLex (2, toLex (0, 0)))

theorem compare_natCast (m n : ℕ) : compare (m : ℤ) n = compare m n := by
  rw [← cmp_eq_compare, ← cmp_eq_compare]
  exact Nat.strictMono_cast.cmp_map_eq m n

theorem compare_neg (i j : ℤ) : compare (-i) (-j) = (compare i j).swap := by
  rw [← cmp_eq_compare, ← cmp_eq_compare, cmp_swap]
  exact (StrictAnti.cmp_map_eq (fun _ _ h => neg_lt_neg h) i j)

/-- Numbers compare as their places do. -/
theorem compare_eq (a b : UnpackedFloat) :
    a.compare b = (place a).bind fun x => (place b).map fun y => compare x y := by
  cases a with
  | notANumber => cases b <;> rfl
  | infinity s =>
      cases b with
      | notANumber => cases s <;> rfl
      | infinity t => cases s <;> cases t <;> rfl
      | zero t => cases s <;> rfl
      | finite t n f hn => cases s <;> cases t <;> rfl
  | zero s =>
      cases b with
      | notANumber => rfl
      | infinity t => cases t <;> rfl
      | zero t => rfl
      | finite t n f hn => cases t <;> rfl
  | finite s m e hm =>
      cases b with
      | notANumber => cases s <;> rfl
      | infinity t => cases s <;> cases t <;> rfl
      | zero t => cases s <;> rfl
      | finite t n f hn =>
          cases s <;> cases t
          · show some ((compare e f).then (compare m n)).swap =
              some ((compare (-e) (-f)).then (compare (-m : ℤ) (-n)))
            rw [compare_neg, compare_neg, compare_natCast, Ordering.swap_then]
          · rfl
          · rfl
          · show some ((compare e f).then (compare m n)) =
                some ((compare e f).then (compare (m : ℤ) n))
            rw [compare_natCast]

theorem lt_iff {a b : Float} :
    a < b ↔ ∃ x ∈ place a.toModel.unpack, ∃ y ∈ place b.toModel.unpack, x < y := by
  have hdef : a < b ↔ a.toModel.unpack.compare b.toModel.unpack = some .lt := by
    constructor
    · intro h
      exact eq_of_beq (of_decide_eq_true h)
    · intro h
      exact decide_eq_true (beq_iff_eq.2 h)
  rw [hdef, compare_eq]
  cases place a.toModel.unpack <;> cases place b.toModel.unpack <;> simp [compare_lt_iff_lt]

theorem le_iff {a b : Float} :
    a ≤ b ↔ ∃ x ∈ place a.toModel.unpack, ∃ y ∈ place b.toModel.unpack, x ≤ y := by
  have hdef : a ≤ b ↔ (a.toModel.unpack.compare b.toModel.unpack).any Ordering.isLE = true :=
    ⟨of_decide_eq_true, decide_eq_true⟩
  rw [hdef, compare_eq]
  cases place a.toModel.unpack <;> cases place b.toModel.unpack <;>
    simp [Ordering.isLE_iff_ne_gt, compare_le_iff_le]

theorem beq_iff {a b : Float} :
    (a == b) = true ↔ ∃ x ∈ place a.toModel.unpack, x ∈ place b.toModel.unpack := by
  have hdef : (a == b) = (a.toModel.unpack.compare b.toModel.unpack == some .eq) := rfl
  rw [hdef, beq_iff_eq, compare_eq]
  cases place a.toModel.unpack with
  | none => simp
  | some x =>
      cases place b.toModel.unpack with
      | none => simp
      | some y =>
          have hsame : compare x y = .eq ↔ y = x := compare_eq_iff_eq.trans eq_comm
          simpa using hsame

theorem beq_comm (a b : Float) : (a == b) = (b == a) := by
  rw [Bool.eq_iff_iff, beq_iff, beq_iff]
  simp only [and_comm]

theorem lt_asymm {a b : Float} (h : a < b) : ¬ b < a := by
  intro hba
  obtain ⟨x, hx, y, hy, hxy⟩ := lt_iff.1 h
  obtain ⟨y', hy', x', hx', hyx⟩ := lt_iff.1 hba
  obtain rfl := Option.mem_unique hx hx'
  obtain rfl := Option.mem_unique hy hy'
  exact absurd hxy (not_lt_of_gt hyx)

theorem lt_of_lt_of_le {a b c : Float} (h : a < b) (hbc : b ≤ c) : a < c := by
  obtain ⟨x, hx, y, hy, hxy⟩ := lt_iff.1 h
  obtain ⟨y', hy', z, hz, hyz⟩ := le_iff.1 hbc
  obtain rfl := Option.mem_unique hy hy'
  exact lt_iff.2 ⟨x, hx, z, hz, hxy.trans_le hyz⟩

theorem lt_of_le_of_lt {a b c : Float} (h : a ≤ b) (hbc : b < c) : a < c := by
  obtain ⟨x, hx, y, hy, hxy⟩ := le_iff.1 h
  obtain ⟨y', hy', z, hz, hyz⟩ := lt_iff.1 hbc
  obtain rfl := Option.mem_unique hy hy'
  exact lt_iff.2 ⟨x, hx, z, hz, hxy.trans_lt hyz⟩

theorem le_of_lt {a b : Float} (h : a < b) : a ≤ b := by
  obtain ⟨x, hx, y, hy, hxy⟩ := lt_iff.1 h
  exact le_iff.2 ⟨x, hx, y, hy, hxy.le⟩

theorem lt_trans {a b c : Float} (h : a < b) (hbc : b < c) : a < c :=
  lt_of_lt_of_le h (le_of_lt hbc)

/-! ## The order for sorting -/

theorem precedes_trans {a b c : Float} (h : Coordinate.precedes a b = true)
    (hbc : Coordinate.precedes b c = true) :
    Coordinate.precedes a c = true :=
  decide_eq_true ((of_decide_eq_true h).trans (of_decide_eq_true hbc))

theorem precedes_total (a b : Float) :
    (Coordinate.precedes a b || Coordinate.precedes b a) = true := by
  rw [Bool.or_eq_true_iff]
  exact (le_total (orderKey a) (orderKey b)).imp decide_eq_true decide_eq_true

end Binary64

end InkAlgebra

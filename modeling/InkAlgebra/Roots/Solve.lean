import InkAlgebra.Roots.Bisection
import InkAlgebra.Roots.Bracket

/-!
# The real roots of a polynomial

The roots of the derivative divide the line into intervals on which the polynomial is monotone, so
that each holds at most one root. The derivative is solved first, by the same means, down to degree
one, which has a closed form.

Every dividing point that counts as a root is reported once: by the interval that starts at it, or
at the far right, where no interval may start, by itself.
-/

namespace InkAlgebra

inductive Roots (α : Type) where
  | finite (roots : List α)
  | infinite
deriving DecidableEq, Repr

/-- The roots as points that divide the line. Without a list of them there is nothing to divide
at. -/
def Roots.points {α : Type} : Roots α → List α
  | .finite roots => roots
  | .infinite => []

namespace Polynomial

variable {α : Type} [Coefficient α]

/-- The roots between neighbouring dividing points. -/
def rootsBetween (p : Polynomial α) (s : SolverSettings α) :
    List α → Except (Halt (EquationError α)) (List α)
  | a :: b :: rest => do
    let root ← p.findRoot a b false s
    let roots ← rootsBetween p s (b :: rest)
    return root.toList ++ roots
  | _ => .ok []

/-- The root left of the first dividing point. -/
def rootsLeftOf (p : Polynomial α) (s : SolverSettings α) (first : α) :
    Except (Halt (EquationError α)) (List α) := do
  match ← (p.lowerBound first s).mapError .unsolvable with
  | some low => return (← p.findRoot low first false s).toList
  | none => return []

/-- The root from the last dividing point on, given the roots before it. -/
def rootsFrom (p : Polynomial α) (s : SolverSettings α) (last : α) (before : List α) :
    Except (Halt (EquationError α)) (List α) := do
  match ← (p.upperBound last s).mapError .unsolvable with
  | some high => return (← p.findRoot last high true s).toList
  | none =>
    let isNew : Bool := match before.getLast? with
      | some root => !(root == last)
      | none => true
    return if Scalar.abs (p.eval last) ≤ s.epsilon ∧ isNew then [last] else []

/-- The roots of a polynomial, given those of its derivative; without any, zero divides the line. -/
def rootsFromCritical (p : Polynomial α) (critical : List α) (s : SolverSettings α) :
    Except (Halt (EquationError α)) (List α) := do
  let first := critical.head?.getD 0
  let last := critical.getLast?.getD 0
  let left ← p.rootsLeftOf s first
  let between ← p.rootsBetween s critical
  let right ← p.rootsFrom s last (left ++ between)
  return left ++ between ++ right

def solve (p : Polynomial α) (s : SolverSettings α) : Except (Halt (EquationError α)) (Roots α) :=
  if s.maxDegree < p.degree then
    .error (.tooComplex ⟨p.degree.toNat, s.maxDegree.toNat⟩)
  else if p.isZero then .ok .infinite
  else if _h : p.degree.toNat = 0 then .ok (.finite [])
  else if p.degree.toNat = 1 then .ok (.finite [-p.coefficient 0 / p.coefficient 1])
  else do
    let critical := match ← solve p.derivative s with
      | .finite roots => roots
      | .infinite => []
    (p.rootsFromCritical critical s).map .finite
termination_by p.degree.toNat
decreasing_by exact degree_derivative_lt (by omega)

/-! ## Cases -/

section

variable {p : Polynomial α} {s : SolverSettings α}

theorem exists_of_rootsBetween_cons {a b : α} {rest roots : List α}
    (h : p.rootsBetween s (a :: b :: rest) = .ok roots) :
    ∃ found more, p.findRoot a b false s = .ok found ∧ p.rootsBetween s (b :: rest) = .ok more ∧
      roots = found.toList ++ more := by
  rw [rootsBetween] at h
  obtain ⟨found, hfound, h⟩ := exists_of_bind_eq_ok h
  obtain ⟨more, hmore, h⟩ := exists_of_bind_eq_ok h
  exact ⟨found, more, hfound, hmore, (Except.ok.inj h).symm⟩

theorem findRoot_of_lower_isRoot {lower upper : α} {includeUpper : Bool}
    (h : Scalar.abs (p.eval lower) ≤ s.epsilon) :
    p.findRoot lower upper includeUpper s = .ok (some lower) := by
  unfold findRoot
  dsimp only
  rw [if_pos (decide_eq_true h)]

/-- All dividing points but the last are lower ends of intervals and reported there. -/
theorem mem_rootsBetween {a c : α} {rest roots : List α}
    (h : p.rootsBetween s (a :: rest) = .ok roots) (hc : c ∈ a :: rest)
    (hroot : Scalar.abs (p.eval c) ≤ s.epsilon) :
    c ∈ roots ∨ (a :: rest).getLast? = some c := by
  induction rest generalizing a roots with
  | nil =>
    obtain rfl := List.mem_singleton.1 hc
    exact .inr rfl
  | cons b rest ih =>
    obtain ⟨found, more, hfound, hmore, rfl⟩ := exists_of_rootsBetween_cons h
    rcases List.mem_cons.1 hc with rfl | hc
    · rw [findRoot_of_lower_isRoot hroot] at hfound
      obtain rfl := Except.ok.inj hfound
      exact .inl List.mem_cons_self
    · rcases ih hmore hc with hmem | hlast
      · exact .inl (List.mem_append_right _ hmem)
      · rw [List.getLast?_cons_cons]
        exact .inr hlast

/-- The last dividing point reports itself where no interval does, unless its number has been
reported. -/
theorem mem_rootsFrom {last : α} {before after : List α} (h : p.rootsFrom s last before = .ok after)
    (hroot : Scalar.abs (p.eval last) ≤ s.epsilon) :
    ∃ r ∈ before ++ after, r = last ∨ r == last := by
  obtain ⟨bound, _, h⟩ := exists_of_bind_eq_ok h
  cases bound with
  | some high =>
    obtain ⟨found, hfound, h⟩ := exists_of_bind_eq_ok h
    rw [findRoot_of_lower_isRoot hroot] at hfound
    obtain rfl := Except.ok.inj hfound
    obtain rfl := Except.ok.inj h
    exact ⟨last, by simp, .inl rfl⟩
  | none =>
    obtain rfl := Except.ok.inj h
    cases hlast : before.getLast? with
    | none => exact ⟨last, by simp [hroot], .inl rfl⟩
    | some root =>
      by_cases hsame : root == last
      · exact ⟨root, List.mem_append_left _ (List.mem_of_getLast? hlast), .inr hsame⟩
      · exact ⟨last, by simp [hroot, hsame], .inl rfl⟩

/-- Every dividing point that counts as a root is among the roots. -/
theorem mem_rootsFromCritical {points roots : List α}
    (h : p.rootsFromCritical points s = .ok roots) {c : α} (hc : c ∈ points)
    (hroot : Scalar.abs (p.eval c) ≤ s.epsilon) : ∃ r ∈ roots, r = c ∨ r == c := by
  obtain ⟨a, rest, rfl⟩ := List.exists_cons_of_ne_nil (List.ne_nil_of_mem hc)
  obtain ⟨left, _, h⟩ := exists_of_bind_eq_ok h
  obtain ⟨between, hbetween, h⟩ := exists_of_bind_eq_ok h
  obtain ⟨right, hright, h⟩ := exists_of_bind_eq_ok h
  obtain rfl := Except.ok.inj h
  rcases mem_rootsBetween hbetween hc hroot with hmem | hlast
  · exact ⟨c, List.mem_append_left _ (List.mem_append_right _ hmem), .inl rfl⟩
  · rw [hlast] at hright
    exact mem_rootsFrom hright hroot

/-- Without dividing points zero is one. -/
theorem rootsFromCritical_nil : p.rootsFromCritical [] s = p.rootsFromCritical [0] s := rfl

theorem solve_of_degree_eq_zero (hcap : ¬ s.maxDegree < p.degree) (h : p.degree.toNat = 0) :
    p.solve s = .ok (if p.isZero then .infinite else .finite []) := by
  rw [solve, if_neg hcap, dif_pos h]
  split <;> rfl

theorem solve_of_degree_eq_one (hcap : ¬ s.maxDegree < p.degree) (h : p.degree.toNat = 1) :
    p.solve s = .ok (.finite [-p.coefficient 0 / p.coefficient 1]) := by
  have hne : p.degree.toNat ≠ 0 := by omega
  rw [solve, if_neg hcap, if_neg (by simp [isZero_eq_false_of_degree_ne_zero hne]),
    dif_neg hne, if_pos h]

/-- From degree two on the roots of the derivative divide the line. -/
theorem solve_of_two_le_degree (hcap : ¬ s.maxDegree < p.degree) (h : 2 ≤ p.degree.toNat) :
    p.solve s = p.derivative.solve s >>= fun critical =>
      (p.rootsFromCritical critical.points s).map .finite := by
  have hne : p.degree.toNat ≠ 0 := by omega
  rw [solve, if_neg hcap, if_neg (by simp [isZero_eq_false_of_degree_ne_zero hne]),
    dif_neg hne, if_neg (by omega)]
  cases p.derivative.solve s with
  | error e => rfl
  | ok found => cases found <;> rfl

/-- Roots from degree two on have been found between those of the derivative. -/
theorem exists_of_solve_eq_ok (h : 2 ≤ p.degree.toNat) {found : Roots α}
    (hfound : p.solve s = .ok found) :
    ∃ critical roots, p.derivative.solve s = .ok critical ∧
      p.rootsFromCritical critical.points s = .ok roots ∧ found = .finite roots := by
  by_cases hcap : s.maxDegree < p.degree
  · rw [solve, if_pos hcap] at hfound
    cases hfound
  · rw [solve_of_two_le_degree hcap h] at hfound
    obtain ⟨critical, hcritical, hfound⟩ := exists_of_bind_eq_ok hfound
    cases hroots : p.rootsFromCritical critical.points s with
    | error e =>
      rw [hroots] at hfound
      cases hfound
    | ok roots =>
      rw [hroots] at hfound
      exact ⟨critical, roots, hcritical, hroots, (Except.ok.inj hfound).symm⟩

end

end Polynomial

end InkAlgebra

import Mathlib
import InkAlgebra.Proofs.Number.Binary64
import InkAlgebra.Roots.Solve

/-!
# The order of roots

Each root is looked for in a stretch of the line that holds its lower end and not its upper one, and
the stretches follow one another. Roots that lie in their stretches are therefore reported in
ascending order and none of them twice, and they serve as ordered dividing points for the next
polynomial.

A root need not lie in its stretch: rounding, which comes after the search, asks whether the value
gets any further from zero and not where the stretch ends. Of two roots that are closer than a unit
of the last place one may be moved onto the other. So the order of the roots is exactly as good as
this: that a root which has left its stretch still keeps clear of all others.

§1 is the roots together with their stretches, §2 their order, §3 one polynomial and its
derivatives.
-/

namespace InkAlgebra.Polynomial

/-! ## §1  Reports -/

/-- A reported root with the ends of its stretch. A stretch that is unbounded on one side has one
end. -/
structure Report (α : Type) where
  floor : Option α
  ceiling : Option α
  value : α
deriving DecidableEq

theorem exists_option_of_ite {α : Type} (c : Prop) [Decidable c] (a : α) :
    ∃ found : Option α, (if c then [a] else []) = found.toList := by
  by_cases h : c
  · exact ⟨some a, if_pos h⟩
  · exact ⟨none, if_neg h⟩

section

variable {α : Type} [Coefficient α]

/-- Whether a root lies in its stretch. -/
def Report.IsInside (r : Report α) : Prop :=
  (∀ a ∈ r.floor, a ≤ r.value) ∧ ∀ b ∈ r.ceiling, r.value < b

/-- Whether the stretch of one report ends where that of another starts, or before. -/
def Report.EndsBefore (r t : Report α) : Prop := ∃ b ∈ r.ceiling, ∃ a ∈ t.floor, b = a ∨ b < a

def reportsBetween (p : Polynomial α) (s : SolverSettings α) :
    List α → Except (Halt (EquationError α)) (List (Report α))
  | a :: b :: rest => do
    let root ← p.findRoot a b false s
    let reports ← reportsBetween p s (b :: rest)
    return root.toList.map (⟨some a, some b, ·⟩) ++ reports
  | _ => .ok []

/-- The roots of a polynomial with their stretches, given the roots of its derivative. -/
def reports (p : Polynomial α) (critical : List α) (s : SolverSettings α) :
    Except (Halt (EquationError α)) (List (Report α)) := do
  let first := critical.head?.getD 0
  let last := critical.getLast?.getD 0
  let left ← p.rootsLeftOf s first
  let between ← p.reportsBetween s critical
  let right ← p.rootsFrom s last (left ++ between.map Report.value)
  return left.map (⟨none, some first, ·⟩) ++ between ++ right.map (⟨some last, none, ·⟩)

variable {p : Polynomial α} {s : SolverSettings α}

theorem rootsBetween_eq_map_reportsBetween (points : List α) :
    p.rootsBetween s points = (p.reportsBetween s points).map (List.map Report.value) := by
  induction points with
  | nil => rfl
  | cons a rest ih =>
      cases rest with
      | nil => rfl
      | cons b rest =>
          rw [rootsBetween, reportsBetween, ih]
          cases p.findRoot a b false s with
          | error e => rfl
          | ok found =>
              cases p.reportsBetween s (b :: rest) with
              | error e => rfl
              | ok more =>
                  show Except.ok _ = Except.ok _
                  simp [Function.comp_def]

/-- The roots are the roots of the reports. -/
theorem rootsFromCritical_eq_map_reports (points : List α) :
    p.rootsFromCritical points s = (p.reports points s).map (List.map Report.value) := by
  unfold rootsFromCritical reports
  dsimp only
  rw [rootsBetween_eq_map_reportsBetween]
  cases p.rootsLeftOf s (points.head?.getD 0) with
  | error e => rfl
  | ok left =>
      cases p.reportsBetween s points with
      | error e => rfl
      | ok between =>
          simp only [bind, Except.bind, Except.map]
          cases p.rootsFrom s (points.getLast?.getD 0) (left ++ between.map Report.value) with
          | error e => rfl
          | ok right =>
              show Except.ok _ = Except.ok _
              simp [Function.comp_def]

/-! ## §2  The order of stretches -/

theorem exists_option_of_rootsLeftOf {first : α} {roots : List α}
    (h : p.rootsLeftOf s first = .ok roots) :
    ∃ found : Option α, roots = found.toList := by
  obtain ⟨bound, _, h⟩ := exists_of_bind_eq_ok h
  cases bound with
  | none => exact ⟨none, (Except.ok.inj h).symm⟩
  | some low =>
      obtain ⟨found, _, h⟩ := exists_of_bind_eq_ok h
      exact ⟨found, (Except.ok.inj h).symm⟩

theorem exists_option_of_rootsFrom {last : α} {before roots : List α}
    (h : p.rootsFrom s last before = .ok roots) : ∃ found : Option α, roots = found.toList := by
  obtain ⟨bound, _, h⟩ := exists_of_bind_eq_ok h
  cases bound with
  | some high =>
      obtain ⟨found, _, h⟩ := exists_of_bind_eq_ok h
      exact ⟨found, (Except.ok.inj h).symm⟩
  | none =>
      obtain rfl := Except.ok.inj h
      exact exists_option_of_ite _ last

theorem exists_of_reportsBetween_cons {a b : α} {rest : List α} {reports : List (Report α)}
    (h : p.reportsBetween s (a :: b :: rest) = .ok reports) :
    ∃ (found : Option α) (more : List (Report α)), p.reportsBetween s (b :: rest) = .ok more ∧
      reports = found.toList.map (⟨some a, some b, ·⟩) ++ more := by
  rw [reportsBetween] at h
  obtain ⟨found, _, h⟩ := exists_of_bind_eq_ok h
  obtain ⟨more, hmore, h⟩ := exists_of_bind_eq_ok h
  exact ⟨found, more, hmore, (Except.ok.inj h).symm⟩

/-- The stretches between dividing points have dividing points as ends. -/
theorem ends_of_mem_reportsBetween {points : List α} {reports : List (Report α)}
    (h : p.reportsBetween s points = .ok reports) {r : Report α} (hr : r ∈ reports) :
    (∃ a ∈ points, r.floor = some a) ∧ ∃ b ∈ points, r.ceiling = some b := by
  induction points generalizing reports with
  | nil =>
      obtain rfl := Except.ok.inj h
      cases hr
  | cons a rest ih =>
      cases rest with
      | nil =>
          obtain rfl := Except.ok.inj h
          cases hr
      | cons b rest =>
          obtain ⟨found, more, hmore, rfl⟩ := exists_of_reportsBetween_cons h
          rcases List.mem_append.1 hr with hr | hr
          · obtain ⟨x, _, rfl⟩ := List.mem_map.1 hr
            exact ⟨⟨a, by simp, rfl⟩, b, by simp, rfl⟩
          · obtain ⟨⟨c, hc, hfloor⟩, d, hd, hceiling⟩ := ih hmore hr
            exact ⟨⟨c, List.mem_cons_of_mem a hc, hfloor⟩, d, List.mem_cons_of_mem a hd, hceiling⟩

variable {points : List α}

theorem eq_or_head_lt (hpoints : points.Pairwise (· < ·)) {a : α} (ha : a ∈ points) :
    points.head?.getD 0 = a ∨ points.head?.getD 0 < a := by
  cases points with
  | nil => cases ha
  | cons b rest =>
      rcases List.mem_cons.1 ha with rfl | ha
      · exact .inl rfl
      · exact .inr (List.rel_of_pairwise_cons hpoints ha)

theorem eq_or_lt_getLast (hpoints : points.Pairwise (· < ·)) {a : α} (ha : a ∈ points) :
    a = points.getLast?.getD 0 ∨ a < points.getLast?.getD 0 := by
  rcases List.eq_nil_or_concat points with rfl | ⟨front, last, rfl⟩
  · cases ha
  · rw [List.concat_eq_append] at hpoints ha ⊢
    rw [List.getLast?_concat, Option.getD_some]
    rcases List.mem_append.1 ha with ha | ha
    · exact .inr ((List.pairwise_append.1 hpoints).2.2 a ha last List.mem_cons_self)
    · exact .inl (List.mem_singleton.1 ha)

theorem head_eq_or_lt_getLast (hpoints : points.Pairwise (· < ·)) :
    points.head?.getD 0 = points.getLast?.getD 0 ∨
      points.head?.getD 0 < points.getLast?.getD 0 := by
  cases points with
  | nil => exact .inl rfl
  | cons a rest => exact eq_or_lt_getLast hpoints List.mem_cons_self

theorem pairwise_endsBefore_reportsBetween {reports : List (Report α)}
    (hpoints : points.Pairwise (· < ·)) (h : p.reportsBetween s points = .ok reports) :
    reports.Pairwise Report.EndsBefore := by
  induction points generalizing reports with
  | nil =>
      obtain rfl := Except.ok.inj h
      exact .nil
  | cons a rest ih =>
      cases rest with
      | nil =>
          obtain rfl := Except.ok.inj h
          exact .nil
      | cons b rest =>
          obtain ⟨found, more, hmore, rfl⟩ := exists_of_reportsBetween_cons h
          have hrest := (List.pairwise_cons.1 hpoints).2
          refine List.pairwise_append.2 ⟨?_, ih hrest hmore, ?_⟩
          · cases found <;> simp
          · intro r hr t ht
            obtain ⟨x, _, rfl⟩ := List.mem_map.1 hr
            obtain ⟨⟨c, hc, hfloor⟩, _⟩ := ends_of_mem_reportsBetween hmore ht
            exact ⟨b, rfl, c, hfloor, eq_or_head_lt hrest hc⟩

/-- **The stretches follow one another** if the dividing points do. -/
theorem pairwise_endsBefore_reports {reports : List (Report α)} (hpoints : points.Pairwise (· < ·))
    (h : p.reports points s = .ok reports) : reports.Pairwise Report.EndsBefore := by
  obtain ⟨left, hleft, h⟩ := exists_of_bind_eq_ok h
  obtain ⟨between, hbetween, h⟩ := exists_of_bind_eq_ok h
  obtain ⟨right, hright, h⟩ := exists_of_bind_eq_ok h
  obtain rfl := Except.ok.inj h
  obtain ⟨leftmost, rfl⟩ := exists_option_of_rootsLeftOf hleft
  obtain ⟨rightmost, rfl⟩ := exists_option_of_rootsFrom hright
  refine List.pairwise_append.2 ⟨List.pairwise_append.2 ⟨?_, ?_, ?_⟩, ?_, ?_⟩
  · cases leftmost <;> simp
  · exact pairwise_endsBefore_reportsBetween hpoints hbetween
  · intro r hr t ht
    obtain ⟨x, _, rfl⟩ := List.mem_map.1 hr
    obtain ⟨⟨a, ha, hfloor⟩, _⟩ := ends_of_mem_reportsBetween hbetween ht
    exact ⟨_, rfl, a, hfloor, eq_or_head_lt hpoints ha⟩
  · cases rightmost <;> simp
  · intro r hr t ht
    obtain ⟨x, _, rfl⟩ := List.mem_map.1 ht
    rcases List.mem_append.1 hr with hr | hr
    · obtain ⟨y, _, rfl⟩ := List.mem_map.1 hr
      exact ⟨_, rfl, _, rfl, head_eq_or_lt_getLast hpoints⟩
    · obtain ⟨_, b, hb, hceiling⟩ := ends_of_mem_reportsBetween hbetween hr
      exact ⟨b, hceiling, _, rfl, eq_or_lt_getLast hpoints hb⟩

theorem degree_iterate_derivative_le (p : Polynomial α) (k : ℕ) :
    (derivative^[k] p).degree ≤ p.degree := by
  induction k with
  | zero => exact UInt32.le_refl _
  | succ k ih =>
      rw [Function.iterate_succ_apply']
      exact UInt32.le_trans (degree_derivative_le _) ih

end

/-! ## §3  The order of roots -/

/-- Of two reports whose stretches follow one another and whose roots lie in them, the first has the
lesser root. -/
theorem Report.EndsBefore.value_lt {r t : Report Float} (h : r.EndsBefore t) (hr : r.IsInside)
    (ht : t.IsInside) : r.value < t.value := by
  obtain ⟨b, hb, a, ha, rfl | hba⟩ := h
  · exact Binary64.lt_of_lt_of_le (hr.2 b hb) (ht.1 b ha)
  · exact Binary64.lt_of_lt_of_le (Binary64.lt_trans (hr.2 b hb) hba) (ht.1 a ha)

/-- Whether a root that is not in its stretch keeps its place in the order of the stretches. -/
def Report.KeepsClear (r t : Report Float) : Prop := ¬ (r.IsInside ∧ t.IsInside) → r.value < t.value

/-- Between the roots of the derivative, all roots that have left their stretches keep clear of the
others. -/
def RootsKeepClear (p : Polynomial Float) (s : SolverSettings Float) : Prop :=
  2 ≤ p.degree.toNat → ∀ critical reports, p.derivative.solve s = .ok critical →
    p.reports critical.points s = .ok reports → reports.Pairwise Report.KeepsClear

section

variable {p : Polynomial Float} {s : SolverSettings Float}

/-- Of stretches that follow one another the roots ascend exactly if those which have left them keep
clear. -/
theorem pairwise_value_lt_iff {reports : List (Report Float)}
    (h : reports.Pairwise Report.EndsBefore) :
    (reports.map Report.value).Pairwise (· < ·) ↔ reports.Pairwise Report.KeepsClear := by
  rw [List.pairwise_map]
  constructor
  · intro hlt
    refine hlt.imp ?_
    intro r t hrt _
    exact hrt
  · intro hclear
    refine (h.and hclear).imp ?_
    rintro r t ⟨hends, hkeeps⟩
    by_cases hinside : r.IsInside ∧ t.IsInside
    · exact hends.value_lt hinside.1 hinside.2
    · exact hkeeps hinside

theorem solve_eq_map_reports (hcap : p.degree ≤ s.maxDegree) (h : 2 ≤ p.degree.toNat)
    {critical : Roots Float} (hcritical : p.derivative.solve s = .ok critical) :
    p.solve s = (p.reports critical.points s).map fun reports =>
      .finite (reports.map Report.value) := by
  rw [solve_of_two_le_degree (UInt32.not_lt.2 hcap) h, hcritical]
  show (p.rootsFromCritical critical.points s).map Roots.finite = _
  rw [rootsFromCritical_eq_map_reports]
  cases p.reports critical.points s <;> rfl

/-- If at a polynomial and at all its derivatives the roots keep clear, they ascend, one derivative
after the other. -/
theorem pairwise_lt_of_rootsKeepClear (hcap : p.degree ≤ s.maxDegree)
    (hclear : ∀ k, (derivative^[k] p).RootsKeepClear s) {found : Roots Float}
    (h : p.solve s = .ok found) :
    found.points.Pairwise (· < ·) := by
  induction hd : p.degree.toNat using Nat.strong_induction_on generalizing p found with
  | _ d ih =>
      have hfit : ¬ s.maxDegree < p.degree := UInt32.not_lt.2 hcap
      rcases Nat.lt_or_ge d 2 with hlow | htwo
      · have hcases : p.degree.toNat = 0 ∨ p.degree.toNat = 1 := by omega
        rcases hcases with hzero | hone
        · rw [solve_of_degree_eq_zero hfit hzero] at h
          obtain rfl := Except.ok.inj h
          split <;> exact .nil
        · rw [solve_of_degree_eq_one hfit hone] at h
          obtain rfl := Except.ok.inj h
          exact List.pairwise_singleton _ _
      · subst hd
        have hderivative : p.derivative.degree ≤ s.maxDegree :=
          UInt32.le_trans (degree_derivative_le p) hcap
        obtain ⟨critical, roots, hcritical, hroots, rfl⟩ := exists_of_solve_eq_ok htwo h
        rw [rootsFromCritical_eq_map_reports] at hroots
        obtain ⟨reports, hreports, rfl⟩ := exists_of_map_eq_ok hroots
        have hpoints : critical.points.Pairwise (· < ·) :=
          ih _ (degree_derivative_lt (by omega)) hderivative (fun k => hclear (k + 1)) hcritical rfl
        have hends := pairwise_endsBefore_reports hpoints hreports
        exact (pairwise_value_lt_iff hends).2 (hclear 0 htwo critical reports hcritical hreports)

end

/-- **The order of roots.** The roots of a polynomial and of all its derivatives come in strictly
ascending order exactly if at each of them every root that has left its stretch keeps clear of the
others. In any case each dividing point that counts as a root is among the roots, up to the sign of
a zero. -/
theorem pairwise_lt_iff_rootsKeepClear {p : Polynomial Float} {s : SolverSettings Float}
    (hcap : p.degree ≤ s.maxDegree) :
    ((∀ k roots, (derivative^[k] p).solve s = .ok (.finite roots) → roots.Pairwise (· < ·)) ↔
        ∀ k, (derivative^[k] p).RootsKeepClear s) ∧
      ∀ k critical roots, 2 ≤ (derivative^[k] p).degree.toNat →
        (derivative^[k] p).derivative.solve s = .ok (.finite critical) →
        (derivative^[k] p).solve s = .ok (.finite roots) →
        ∀ c ∈ critical, Scalar.abs ((derivative^[k] p).eval c) ≤ s.epsilon →
            ∃ r ∈ roots, r = c ∨ r == c := by
  have hcap' : ∀ k, (derivative^[k] p).degree ≤ s.maxDegree := fun k =>
    UInt32.le_trans (degree_iterate_derivative_le p k) hcap
  refine ⟨⟨?_, ?_⟩, ?_⟩
  · intro hascend k htwo critical reports hcritical hreports
    have hpoints : critical.points.Pairwise (· < ·) := by
      cases critical with
      | infinite => exact .nil
      | finite points => exact hascend (k + 1) points (by rwa [Function.iterate_succ_apply'])
    refine (pairwise_value_lt_iff (pairwise_endsBefore_reports hpoints hreports)).1 (hascend k _ ?_)
    rw [solve_eq_map_reports (hcap' k) htwo hcritical, hreports]
    rfl
  · intro hclear k roots hroots
    refine pairwise_lt_of_rootsKeepClear (hcap' k) ?_ hroots
    intro j
    rw [← Function.iterate_add_apply]
    exact hclear (j + k)
  · intro k critical roots htwo hcritical hroots c hc hvalue
    obtain ⟨points, found, hpoints, hfound, heq⟩ := exists_of_solve_eq_ok htwo hroots
    rw [hcritical] at hpoints
    cases hpoints
    cases heq
    exact mem_rootsFromCritical hfound hc hvalue

/-- A cubic with the root `-2` and the double root `1`. -/
def doubleRoot : Polynomial Float := ofTerms [(0, 2), (1, -3), (3, 1)]

theorem degree_doubleRoot_le :
    doubleRoot.degree ≤ (SolverSettings.standard : SolverSettings Float).maxDegree := by
      decide +kernel

theorem solve_derivative_doubleRoot :
    doubleRoot.derivative.solve .standard = .ok (.finite [-1, 1]) := by
  decide +kernel

theorem reports_doubleRoot :
    doubleRoot.reports [-1, 1] .standard = .ok [⟨none, some (-1), -2⟩, ⟨some 1, none, 1⟩] := by
  decide +kernel

theorem rootsKeepClear_doubleRoot (k : ℕ) :
    (derivative^[k] doubleRoot).RootsKeepClear .standard := by
  intro htwo critical reports hcritical hreports
  match k with
  | 0 =>
      obtain rfl := Except.ok.inj (solve_derivative_doubleRoot.symm.trans hcritical)
      obtain rfl := Except.ok.inj (reports_doubleRoot.symm.trans hreports)
      refine List.pairwise_pair.2 ?_
      intro _
      decide +kernel
  | 1 =>
      have hpoints : doubleRoot.derivative.derivative.solve .standard =
          .ok (.finite [-0]) := by decide +kernel
      have hfound : doubleRoot.derivative.reports [-0] .standard =
          .ok [⟨none, some (-0), -1⟩, ⟨some (-0), none, 1⟩] := by decide +kernel
      obtain rfl := Except.ok.inj (hpoints.symm.trans hcritical)
      obtain rfl := Except.ok.inj (hfound.symm.trans hreports)
      refine List.pairwise_pair.2 ?_
      intro _
      decide +kernel
  | j + 2 =>
      have hle := degree_iterate_derivative_le doubleRoot.derivative.derivative j
      have hone : doubleRoot.derivative.derivative.degree.toNat = 1 := by decide +kernel
      rw [UInt32.le_iff_toNat_le, hone] at hle
      exact absurd htwo (not_le.2 (Nat.lt_succ_of_le hle))

/-- The double root is a dividing point and reported once. -/
theorem doubleRoot_ascending :
    doubleRoot.degree ≤ (SolverSettings.standard : SolverSettings Float).maxDegree ∧
      doubleRoot.derivative.solve .standard = .ok (.finite [-1, 1]) ∧
      doubleRoot.solve .standard = .ok (.finite [-2, 1]) ∧
      (∀ k roots, (derivative^[k] doubleRoot).solve .standard = .ok (.finite roots) →
        roots.Pairwise (· < ·)) ∧
      ∃ r ∈ [-2, (1 : Float)], r = 1 ∨ r == 1 := by
  obtain ⟨hiff, hreported⟩ := pairwise_lt_iff_rootsKeepClear degree_doubleRoot_le
  have htwo : 2 ≤ doubleRoot.degree.toNat := by decide +kernel
  have hroots : doubleRoot.solve .standard = .ok (.finite [-2, 1]) := by
    rw [solve_eq_map_reports degree_doubleRoot_le htwo solve_derivative_doubleRoot]
    show (doubleRoot.reports [-1, 1] .standard).map _ = _
    rw [reports_doubleRoot]
    rfl
  refine ⟨degree_doubleRoot_le, solve_derivative_doubleRoot, hroots,
    hiff.2 rootsKeepClear_doubleRoot, ?_⟩
  exact hreported 0 [-1, 1] [-2, 1] htwo solve_derivative_doubleRoot hroots 1
    (by simp) (by decide +kernel)

/-- A parabola whose two roots are closer than a unit of the last place. -/
def closeRoots : Polynomial Float := ofTerms [(1, -2), (2, 65536)]

/-- The root `2 ^ -15` is rounded to the other one, across the dividing point `2 ^ -16`. -/
theorem closeRoots_not_ascending :
    ¬ ∀ (p : Polynomial Float) (s : SolverSettings Float) (roots : List Float),
      p.degree ≤ s.maxDegree →
      s.validate = .ok () → p.solve s = .ok (.finite roots) → roots.Pairwise (· < ·) := by
  intro h
  have hascend := h closeRoots .standard [0, 0] (by decide +kernel)
      (by decide +kernel) (by decide +kernel)
  exact absurd hascend (by decide +kernel)

end InkAlgebra.Polynomial

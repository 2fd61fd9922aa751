import Mathlib
import InkAlgebra.Proofs.Layout.Depth
import InkAlgebra.Proofs.Polynomial.Reduced

/-!
# Caps only reject

Settings cap how deep a page nests, how high a degree may be and how far a search may go. What is
solved under one set of caps is solved under every wider one, with the same solution. A cap decides
between success and failure, and nothing that succeeds has seen by how much it was kept.

Everything that is computed under caps is a row of steps that may fail, and a wider cap keeps the
successes of each step (`Kept`), so that it keeps those of the row. The searches are the loops among
them: one that ends within a budget ends at the same place within a larger one.

§1 is what it means to keep a success, §2 the search for roots, §3 the polynomial, §4 solutions.
-/

namespace InkAlgebra

/-! ## §1  Successes that are kept -/

/-- Whether a success of one computation is a success of another, with the same result. -/
def Kept {ε β : Type} (x y : Except ε β) : Prop := ∀ v, x = .ok v → y = .ok v

namespace Kept

variable {ε ε' β γ : Type} {x y : Except ε β}

theorem refl (x : Except ε β) : Kept x x := fun _ h => h

theorem error (e : ε) (y : Except ε β) : Kept (.error e) y := by
  intro v h
  cases h

theorem ite {c : Prop} [Decidable c] {x' y' : Except ε β} (hthen : c → Kept x y)
    (helse : ¬ c → Kept x' y') :
    Kept (if c then x else x') (if c then y else y') := by
  by_cases hc : c
  · rw [if_pos hc, if_pos hc]
    exact hthen hc
  · rw [if_neg hc, if_neg hc]
    exact helse hc

/-- A guard that rejects less. -/
theorem guard {c c' : Prop} [Decidable c] [Decidable c'] (h : c' → c) (e e' : ε) (x : Except ε β) :
    Kept (if c then .error e else x) (if c' then .error e' else x) := by
  intro v hv
  split at hv
  · cases hv
  · rename_i hpasses
    rw [if_neg (mt h hpasses), hv]

theorem bind {f g : β → Except ε γ} (h : Kept x y) (hnext : ∀ v, Kept (f v) (g v)) :
    Kept (x >>= f) (y >>= g) := by
  intro w hw
  obtain ⟨v, hv, hw⟩ := exists_of_bind_eq_ok hw
  rw [h v hv]
  exact hnext v w hw

theorem map (h : Kept x y) (f : β → γ) : Kept (x.map f) (y.map f) := by
  intro w hw
  obtain ⟨v, hv, rfl⟩ := exists_of_map_eq_ok hw
  rw [h v hv]
  rfl

theorem mapError (h : Kept x y) (f : ε → ε') : Kept (x.mapError f) (y.mapError f) := by
  intro v hv
  cases x with
  | error e => cases hv
  | ok w =>
      rw [h w rfl]
      exact hv

end Kept

/-! ## §2  The search -/

/-- Settings with the same precision and caps that are at least as wide. -/
structure SolverSettings.Widens {α : Type} (s s' : SolverSettings α) : Prop where
  epsilon_eq : s'.epsilon = s.epsilon
  maxDegree_le : s.maxDegree ≤ s'.maxDegree
  maxBracketSteps_le : s.maxBracketSteps ≤ s'.maxBracketSteps
  maxHalvings_le : s.maxHalvings ≤ s'.maxHalvings

variable {α : Type} [Coefficient α] {s s' : SolverSettings α}

theorem SolverSettings.Widens.digits_eq (hs : s.Widens s') : s'.digits = s.digits := by
  rw [digits, hs.epsilon_eq, digits]

namespace Polynomial

/-- A search outward that ends does so at the same point with more moves. -/
theorem stepOut_of_le {unchanged : α → Bool} {move : α → α → α} {moves moves' : ℕ} {step x y : α}
    (h : stepOut unchanged move moves step x = some y) (hle : moves ≤ moves') :
    stepOut unchanged move moves' step x = some y := by
  induction moves generalizing moves' step x with
  | zero =>
      rw [stepOut] at h
      split at h
      · cases h
      · rename_i hchanged
        cases moves' with
        | zero => rw [stepOut, if_neg hchanged, h]
        | succ n => rw [stepOut, if_neg hchanged, h]
  | succ n ih =>
      obtain ⟨n', rfl⟩ := Nat.exists_eq_succ_of_ne_zero (Nat.ne_zero_of_lt hle)
      rw [stepOut] at h
      rw [stepOut]
      split at h
      · rename_i hunchanged
        rw [if_pos hunchanged]
        split at h
        · rename_i hfinite
          dsimp only
          rw [if_pos hfinite]
          exact ih h (Nat.le_of_succ_le_succ hle)
        · cases h
      · rename_i hchanged
        rw [if_neg hchanged, h]

/-- A bisection that ends does so at the same point with more halvings. -/
theorem bisect_of_le {p : Polynomial α} {epsilon : α} {halvings halvings' : ℕ}
    {low high middle x : α} (h : p.bisect epsilon halvings low high middle = some x)
    (hle : halvings ≤ halvings') :
    p.bisect epsilon halvings' low high middle = some x := by
  induction halvings generalizing halvings' low high middle with
  | zero => cases h
  | succ n ih =>
      obtain ⟨n', rfl⟩ := Nat.exists_eq_succ_of_ne_zero (Nat.ne_zero_of_lt hle)
      rw [bisect] at h ⊢
      dsimp only at h ⊢
      split at h
      · rename_i hfar
        rw [if_pos hfar]
        generalize (if 0 < p.eval middle * p.eval high then (low, middle) else (middle, high)) =
          half at h ⊢
        split at h
        · rename_i hclose
          rw [if_pos hclose, h]
        · rename_i hapart
          rw [if_neg hapart]
          exact ih h (Nat.le_of_succ_le_succ hle)
      · rename_i hnear
        rw [if_neg hnear, h]

variable (hs : s.Widens s') (p : Polynomial α)

include hs

theorem kept_lowerBound (upper : α) : Kept (p.lowerBound upper s) (p.lowerBound upper s') := by
  refine .ite (fun _ => .refl _) fun _ => ?_
  intro bound h
  split at h
  · rename_i low hlow
    rw [stepOut_of_le hlow (UInt32.le_iff_toNat_le.1 hs.maxBracketSteps_le)]
    exact h
  · cases h

theorem kept_upperBound (lower : α) : Kept (p.upperBound lower s) (p.upperBound lower s') := by
  refine .ite (fun _ => .refl _) fun _ => ?_
  intro bound h
  split at h
  · rename_i high hhigh
    rw [stepOut_of_le hhigh (UInt32.le_iff_toNat_le.1 hs.maxBracketSteps_le)]
    exact h
  · cases h

theorem kept_findRoot (lower upper : α) (includeUpper : Bool) :
    Kept (p.findRoot lower upper includeUpper s) (p.findRoot lower upper includeUpper s') := by
  unfold findRoot
  rw [hs.epsilon_eq, hs.digits_eq]
  refine .ite (fun _ => .refl _) fun _ => .ite (fun _ => .refl _) fun _ =>
    .ite (fun _ => .refl _) fun _ => ?_
  intro root h
  split at h
  · rename_i x hx
    rw [bisect_of_le hx hs.maxHalvings_le]
    exact h
  · cases h

theorem kept_rootsBetween (points : List α) :
    Kept (p.rootsBetween s points) (p.rootsBetween s' points) := by
  induction points with
  | nil => exact .refl _
  | cons a rest ih =>
      cases rest with
      | nil => exact .refl _
      | cons b rest =>
          rw [rootsBetween, rootsBetween]
          exact (kept_findRoot hs p a b false).bind fun _ => ih.bind fun _ => .refl _

theorem kept_rootsLeftOf (first : α) : Kept (p.rootsLeftOf s first) (p.rootsLeftOf s' first) := by
  refine ((kept_lowerBound hs p first).mapError _).bind fun bound => ?_
  cases bound with
  | none => exact .refl _
  | some low => exact (kept_findRoot hs p low first false).bind fun _ => .refl _

theorem kept_rootsFrom (last : α) (before : List α) :
    Kept (p.rootsFrom s last before) (p.rootsFrom s' last before) := by
  unfold rootsFrom
  rw [hs.epsilon_eq]
  refine ((kept_upperBound hs p last).mapError _).bind fun bound => ?_
  cases bound with
  | none => exact .refl _
  | some high => exact (kept_findRoot hs p last high true).bind fun _ => .refl _

theorem kept_rootsFromCritical (points : List α) :
    Kept (p.rootsFromCritical points s) (p.rootsFromCritical points s') := by
  refine (kept_rootsLeftOf hs p _).bind fun left => ?_
  refine (kept_rootsBetween hs p points).bind fun between => ?_
  exact (kept_rootsFrom hs p _ _).bind fun right => .refl _

/-- **Searching.** A polynomial that is solved is solved with the same roots under wider caps. -/
theorem kept_solve : Kept (p.solve s) (p.solve s') := by
  induction hn : p.degree.toNat using Nat.strong_induction_on generalizing p with
  | _ n ih =>
      by_cases hcap : s.maxDegree < p.degree
      · rw [solve, if_pos hcap]
        exact .error _ _
      · have hcap' : ¬ s'.maxDegree < p.degree := by
          intro h
          exact hcap (UInt32.lt_of_le_of_lt hs.maxDegree_le h)
        rcases Nat.lt_or_ge p.degree.toNat 2 with hlow | hhigh
        · rcases Nat.le_one_iff_eq_zero_or_eq_one.1 (Nat.le_of_lt_succ hlow) with hzero | hone
          · rw [solve_of_degree_eq_zero hcap hzero, solve_of_degree_eq_zero hcap' hzero]
            exact .refl _
          · rw [solve_of_degree_eq_one hcap hone, solve_of_degree_eq_one hcap' hone]
            exact .refl _
        · have hless : p.derivative.degree.toNat < n := hn ▸ degree_derivative_lt (by omega)
          rw [solve_of_two_le_degree hcap hhigh, solve_of_two_le_degree hcap' hhigh]
          refine (ih _ hless p.derivative rfl).bind fun critical => ?_
          exact (kept_rootsFromCritical hs p critical.points).map _

end Polynomial

/-! ## §3  The polynomial -/

section

variable {α : Type} [Coefficient α] [LawfulCount α] {cap cap' : UInt32} (hcap : cap ≤ cap')

include hcap

/-- A power that is not too high for a cap is not too high for a wider one, and is multiplied out
alike. -/
theorem Polynomial.kept_power (p q : Polynomial α) : Kept (p.power q cap) (p.power q cap') := by
  have hfits {degree : α} (h : Scalar.ofNat cap'.toNat < degree) :
      Scalar.ofNat cap.toNat < degree :=
    LawfulCount.lt_of_ofNat_lt (UInt32.le_iff_toNat_le.1 hcap) cap'.toNat_lt h
  refine .ite (fun _ => .refl _) fun _ => .ite (fun _ => .refl _) fun _ =>
    .ite (fun _ => .refl _) fun _ => ?_
  exact .ite (fun _ => .refl _) fun _ => .guard hfits _ _ _

theorem Polynomial.kept_binary (o : Op) (p q : Polynomial α) :
    Kept ((meaning cap).binary o p q) ((meaning cap').binary o p q) := by
  cases o with
  | add | sub | mul | div => exact .refl _
  | pow | neg | pos => exact kept_power hcap p q

theorem kept_ofExpression (text : List Char) :
    Kept (Polynomial.ofExpression (α := α) cap text) (Polynomial.ofExpression cap' text) := by
  have hsim : (Polynomial.meaning (α := α) cap').Simulates (Polynomial.meaning cap) id Eq := by
    constructor
    · intro t p _ hp
      rw [relabel_id] at hp
      exact ⟨p, hp, rfl⟩
    · rintro o p _ rfl
      rfl
    · rintro o p _ q _ r rfl rfl hr
      exact ⟨r, Polynomial.kept_binary hcap o p q r hr, rfl⟩
  intro p h
  obtain ⟨post, hparse, hrun⟩ := exists_run_of_ofExpression h
  obtain ⟨q, hrun', rfl⟩ := hsim.exists_run hparse hrun
  rw [Polynomial.ofExpression, hparse]
  exact hrun'

theorem kept_equationPolynomial (text : List Char) :
    Kept (equationPolynomial (α := α) cap text) (equationPolynomial cap' text) := by
  unfold equationPolynomial
  split
  · exact kept_ofExpression hcap _
  · exact kept_ofExpression hcap _
  · exact (kept_ofExpression hcap _).bind fun _ => (kept_ofExpression hcap _).bind fun _ => .refl _

end

/-! ## §4  Solutions -/

section

variable {α : Type} [Coefficient α] [LawfulCount α] {s s' : SolverSettings α} (hs : s.Widens s')

include hs

theorem kept_solveEquation (text : List Char) :
    Kept (solveEquation s text) (solveEquation s' text) := by
  have hvalidate : s'.validate = s.validate := by
    unfold SolverSettings.validate
    rw [hs.epsilon_eq]
  unfold solveEquation
  rw [hvalidate, hs.digits_eq]
  refine (Kept.refl _).bind fun _ => ?_
  refine (kept_equationPolynomial hs.maxDegree_le text).bind fun p => ?_
  exact (p.kept_solve hs).bind fun _ => .refl _

/-- A canonical expression that is solved is solved with the same roots, and the unknown is found
without a look at the caps. -/
theorem solveCanonical_eq_of_ok {expression : List Char} {roots : Roots α}
    (h : (solveCanonical s expression).2 = .ok roots) :
    solveCanonical s' expression = solveCanonical s expression := by
  unfold solveCanonical at h ⊢
  split at h
  · cases h
  · rename_i inX unknown hinX
    dsimp only at h ⊢
    rw [h, kept_solveEquation hs inX roots h]

theorem solveExpression_eq_of_valid {write : α → List Char} {typesetter : Typesetter}
    {raw : List Char} {solution : Solution α}
    (h : solveExpression write s typesetter raw = some solution) (hvalid : solution.valid = true) :
    solveExpression write s' typesetter raw = some solution := by
  obtain ⟨roots, hroots⟩ := exists_roots_of_valid h hvalid
  rw [← h]
  unfold solveExpression
  dsimp only
  rw [solveCanonical_eq_of_ok hs hroots]

end

/-- A page that is assembled is assembled to the same text with more levels. -/
theorem assemble_withMaxDepth {κ : Type} [Coordinate κ] {p : Page κ} {maxDepth : ℕ}
    (hdepth : p.geometry.maxDepth ≤ maxDepth) {detections : List (Detection κ)} {text : List Char}
    (h : assemble p detections = .ok text) :
    assemble (p.withMaxDepth maxDepth) detections = .ok text :=
  (p.upTo_assembleRow maxDepth (Nat.succ_le_succ hdepth)
    (detections.map (.ofDetection p.geometry))).eq_ok h

/-- **Caps only reject.** A page of symbols or a text that is solved under some caps has the same
solution, in every part of it, under all wider ones. -/
theorem solution_eq_of_valid {κ : Type} [Coordinate κ] {p : Page κ} {maxDepth : ℕ}
    (hdepth : p.geometry.maxDepth ≤ maxDepth) {s s' : SolverSettings Float} (hs : s.Widens s')
    (write : Float → List Char) (typesetter : Typesetter) :
    (∀ (detections : List (Detection κ)) (solution : Solution Float),
        solvePage write p s typesetter detections = some solution → solution.valid = true →
          solvePage write (p.withMaxDepth maxDepth) s' typesetter detections = some solution) ∧
      ∀ (raw : List Char) (solution : Solution Float),
        solveExpression write s typesetter raw = some solution → solution.valid = true →
          solveExpression write s' typesetter raw = some solution := by
  refine ⟨?_, fun raw solution h hvalid => solveExpression_eq_of_valid hs h hvalid⟩
  intro detections solution h hvalid
  unfold solvePage at h ⊢
  cases htext : assemble p detections with
  | error e =>
      rw [htext] at h
      cases h
      cases hvalid
  | ok raw =>
      rw [htext] at h
      rw [assemble_withMaxDepth hdepth htext]
      exact solveExpression_eq_of_valid hs h hvalid

/-- A square less four. -/
def squareLessFour : List (Detection Float) :=
  [symbolAt "x" 0.3 0.5 0.1 0.1, symbolAt "2" 0.38 0.48 0.03 0.08, symbolAt "-" 0.5 0.5 0.05 0.01,
    symbolAt "4" 0.6 0.5 0.05 0.1]

def tightSettings : SolverSettings Float :=
  { SolverSettings.standard with maxDegree := 2, maxBracketSteps := 1 }

/-- One script, degree two and one step outward on each side are enough for a square less four. -/
theorem squareLessFour_eq_of_valid :
    ((standardPage.withMaxDepth 1).geometry.maxDepth ≤ 64 ∧ tightSettings.Widens .standard) ∧
      (∃ solution, solvePage (fun _ => []) (standardPage.withMaxDepth 1) tightSettings typeset
          squareLessFour = some solution ∧ solution.valid = true ∧
        solvePage (fun _ => []) standardPage .standard typeset squareLessFour = some solution) ∧
      ∃ solution, solveExpression (fun _ => []) tightSettings typeset "x^2=4".toList =
        some solution ∧ solution.valid = true ∧
        solveExpression (fun _ => []) .standard typeset "x^2=4".toList = some solution := by
  have hdepth : (standardPage.withMaxDepth 1).geometry.maxDepth ≤ 64 := by decide
  have hwidens : tightSettings.Widens .standard := ⟨rfl, by decide, by decide, le_rfl⟩
  obtain ⟨page, hpage, hpageValid⟩ :
      ∃ solution, solvePage (fun _ => []) (standardPage.withMaxDepth 1)
      tightSettings typeset squareLessFour = some solution ∧ solution.valid = true := by
    rw [solvePage, assemble_of_sorted (by decide +kernel)]
    exact (Option.any_eq_true ..).1 (by decide +kernel)
  obtain ⟨text, htext, htextValid⟩ : ∃ solution, solveExpression (fun _ => []) tightSettings typeset
      "x^2=4".toList = some solution ∧ solution.valid = true :=
    (Option.any_eq_true ..).1 (by decide +kernel)
  obtain ⟨hpages, htexts⟩ := solution_eq_of_valid hdepth hwidens (fun _ => []) typeset
  exact ⟨⟨hdepth, hwidens⟩, ⟨page, hpage, hpageValid, hpages _ _ hpage hpageValid⟩,
    text, htext, htextValid, htexts _ _ htext htextValid⟩

end InkAlgebra

import Mathlib
import InkAlgebra.Proofs.Equation.Sides
import InkAlgebra.Proofs.Expression.Simulation
import InkAlgebra.Proofs.Number.Laws

/-!
# Polynomials without stored zeros

Whatever is made of a row of terms stores no coefficient that counts as zero, and every value of an
expression is made so. What comes of it is that terms which are put together again are the
polynomial they were taken from, although each of them is added to a zero on the way.

§1 are the operations, §2 expressions.
-/

namespace InkAlgebra

namespace Polynomial

variable {α : Type}

/-! ## §1  Operations -/

/-- A coefficient of a degree above all others goes to the end. -/
theorem addTerm_of_forall_lt [Zero α] [Add α] {d : UInt32} {c : α} {terms : List (Term α)}
    (h : ∀ t ∈ terms, t.1 < d) : addTerm d c terms = terms ++ [(d, 0 + c)] := by
  induction terms with
  | nil => rfl
  | cons t rest ih =>
      obtain ⟨ht, hrest⟩ := List.forall_mem_cons.1 h
      have hne : d ≠ t.1 := (UInt32.ne_of_lt ht).symm
      rw [addTerm, if_neg (UInt32.lt_asymm ht), if_neg hne, ih hrest]
      rfl

/-- A coefficient of a degree below all others goes to the front. -/
theorem addTerm_of_forall_gt [Zero α] [Add α] {d : UInt32} {c : α} {terms : List (Term α)}
    (h : ∀ t ∈ terms, d < t.1) : addTerm d c terms = (d, 0 + c) :: terms := by
  cases terms with
  | nil => rfl
  | cons t rest => exact if_pos (h t List.mem_cons_self)

/-- Ascending terms are added up by adding each to zero. -/
theorem sumTerms_of_ascending [Zero α] [Add α] {row : List (Term α)}
    (h : row.Pairwise fun s t => s.1 < t.1) :
    sumTerms row = row.map fun t => (t.1, 0 + t.2) := by
  suffices ∀ sum : List (Term α), (∀ s ∈ sum, ∀ t ∈ row, s.1 < t.1) →
      row.foldl (fun sum t => addTerm t.1 t.2 sum) sum = sum ++ row.map fun t => (t.1, 0 + t.2) from
    this [] fun s hs => absurd hs List.not_mem_nil
  induction row with
  | nil => exact fun sum _ => (List.append_nil sum).symm
  | cons t rest ih =>
      intro sum hsum
      obtain ⟨ht, hrest⟩ := List.pairwise_cons.1 h
      have hlast : ∀ s ∈ sum ++ [(t.1, 0 + t.2)], ∀ u ∈ rest, s.1 < u.1 := by
        intro s hs u hu
        rcases List.mem_append.1 hs with hs | hs
        · exact hsum s hs u (List.mem_cons_of_mem t hu)
        · rw [List.mem_singleton.1 hs]
          exact ht u hu
      rw [List.foldl_cons, addTerm_of_forall_lt fun s hs =>
        hsum s hs t List.mem_cons_self, ih hrest _ hlast]
      simp

section

variable [Scalar α]

/-- Whether no coefficient counts as zero. -/
def Reduced (p : Polynomial α) : Prop := ∀ t ∈ p.terms, (t.2 == 0) = false

theorem reduced_ofTerms (row : List (Term α)) : (ofTerms row).Reduced := by
  intro t ht
  simpa using (List.mem_filter.1 ht).2

end

namespace Reduced

variable [Coefficient α] [LawfulZero α] {p : Polynomial α}

theorem neg (h : p.Reduced) : p.neg.Reduced := by
  intro t ht
  obtain ⟨s, hs, rfl⟩ := List.mem_map.1 ht
  exact LawfulZero.neg_beq_zero (h s hs)

/-- Terms that do not count as zero are added up to themselves. -/
theorem sumTerms_terms (h : p.Reduced) : sumTerms p.terms = p.terms := by
  rw [sumTerms_of_ascending p.ascending]
  refine (List.map_congr_left fun t ht => ?_).trans (List.map_id' p.terms)
  rw [LawfulZero.zero_add (h t ht)]

omit [LawfulZero α] in
theorem filter_terms (h : p.Reduced) : p.terms.filter (fun t => !(t.2 == 0)) = p.terms :=
  List.filter_eq_self.2 fun t ht => by simp [h t ht]

/-- **Put together again.** A reduced polynomial is what its own terms make. -/
theorem ofTerms_terms (h : p.Reduced) : ofTerms p.terms = p := by
  refine eq_of_terms ?_
  show (sumTerms p.terms).filter (fun t => !(t.2 == 0)) = p.terms
  rw [h.sumTerms_terms, h.filter_terms]

theorem minus_zero (h : p.Reduced) : p.minus zero = p := by
  show ofTerms (p.terms ++ []) = p
  rw [List.append_nil, h.ofTerms_terms]

end Reduced

theorem reduced_of_multiply [Scalar α] {p q r : Polynomial α} (h : p.multiply q = .ok r) :
    r.Reduced := by
  obtain ⟨_, rfl⟩ := multiply_eq_ok h
  exact reduced_ofTerms _

theorem reduced_of_multiplyResults [Scalar α] {x y : Except (Halt (EquationError α)) (Polynomial α)}
    {r : Polynomial α} (h : multiplyResults x y = .ok r) : r.Reduced := by
  obtain ⟨p, _, h⟩ := exists_of_bind_eq_ok h
  obtain ⟨q, _, h⟩ := exists_of_bind_eq_ok h
  exact reduced_of_multiply h

/-- A product of factors is reduced if it starts reduced: each further factor makes it anew from
terms. -/
theorem reduced_of_raise [Scalar α]
    {accumulated base : Except (Halt (EquationError α)) (Polynomial α)}
    (h : ∀ p, accumulated = .ok p → p.Reduced) (n : ℕ) {r : Polynomial α}
    (hr : Scalar.raise multiplyResults accumulated base n = .ok r) : r.Reduced := by
  have hfactor {accumulated base : Except (Halt (EquationError α)) (Polynomial α)}
      (h : ∀ p, accumulated = .ok p → p.Reduced) (n : ℕ) :
      ∀ p, (if n % 2 = 1 then multiplyResults accumulated base else accumulated) = .ok p →
        p.Reduced := by
    intro p hp
    split at hp
    · exact reduced_of_multiplyResults hp
    · exact h p hp
  fun_induction Scalar.raise multiplyResults accumulated base n with
  | case1 => exact h r hr
  | case2 accumulated base n => exact hfactor h n r hr
  | case3 accumulated base n _ _ _ ih => exact ih (hfactor h n) hr

/-! ## §2  Expressions -/

section

variable [Coefficient α]

theorem reduced_of_divide {p q r : Polynomial α} (h : p.divide q = .ok r) : r.Reduced := by
  unfold divide at h
  dsimp only at h
  split at h
  · cases h
  · split at h
    · cases h
    · rw [← Except.ok.inj h]
      exact reduced_ofTerms _

theorem reduced_of_power {p q r : Polynomial α} {maxDegree : UInt32}
    (h : p.power q maxDegree = .ok r) :
    r.Reduced := by
  unfold power at h
  dsimp only at h
  split at h
  · cases h
  · split at h
    · cases h
    · split at h
      · cases h
      · split at h
        · rw [← Except.ok.inj h]
          exact reduced_ofTerms _
        · split at h
          · cases h
          · refine reduced_of_raise ?_ _ h
            intro one hone
            rw [← Except.ok.inj hone]
            exact reduced_ofTerms _

theorem reduced_of_operand {maxDegree : UInt32} {t : Token} {p : Polynomial α}
    (h : (meaning maxDegree).operand t = .ok p) : p.Reduced := by
  cases hoperand : ofOperand? (α := α) t with
  | none => simp [meaning, hoperand] at h
  | some q =>
      obtain rfl : q = p := by simpa [meaning, hoperand] using h
      unfold ofOperand? at hoperand
      split at hoperand
      · cases hoperand
        exact reduced_ofTerms _
      · obtain ⟨c, _, rfl⟩ := Option.map_eq_some_iff.1 hoperand
        exact reduced_ofTerms _
      · cases hoperand

theorem reduced_of_binary {maxDegree : UInt32} {o : Op} {p q r : Polynomial α}
    (h : (meaning maxDegree).binary o p q = .ok r) : r.Reduced := by
  unfold meaning at h
  dsimp only at h
  split at h
  · rw [← Except.ok.inj h]
    exact reduced_ofTerms _
  · rw [← Except.ok.inj h]
    exact reduced_ofTerms _
  · exact reduced_of_multiply h
  · cases hdivide : p.divide q with
    | error e =>
        rw [hdivide] at h
        cases h
    | ok quotient =>
        rw [hdivide] at h
        rw [← Except.ok.inj h]
        exact reduced_of_divide hdivide
  · exact reduced_of_power h

/-- **Values of expressions are reduced.** -/
theorem reduced_of_ofExpression [LawfulZero α] {maxDegree : UInt32} {text : List Char}
    {p : Polynomial α} (h : ofExpression maxDegree text = .ok p) : p.Reduced := by
  have hsim : (meaning (α := α) maxDegree).Simulates (meaning maxDegree) id fun p q =>
      p = q ∧ p.Reduced := by
    constructor
    · intro t p _ hp
      rw [relabel_id] at hp
      exact ⟨p, hp, rfl, reduced_of_operand hp⟩
    · rintro o p _ ⟨rfl, hp⟩
      refine ⟨rfl, ?_⟩
      show (if o = .neg then p.neg else p).Reduced
      split
      · exact hp.neg
      · exact hp
    · rintro o p _ q _ r ⟨rfl, _⟩ ⟨rfl, _⟩ hr
      exact ⟨r, hr, rfl, reduced_of_binary hr⟩
  obtain ⟨post, hparse, hrun⟩ := exists_run_of_ofExpression h
  obtain ⟨q, _, hpq, hreduced⟩ := hsim.exists_run hparse hrun
  exact hreduced

end

end Polynomial

end InkAlgebra

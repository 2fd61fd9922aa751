import Mathlib
import InkAlgebra.Proofs.Polynomial.Reduced

/-!
# What a polynomial stores

No zero ever gets into a polynomial. Every operation that adds, multiplies or divides coefficients
makes its result anew from terms, which drops what has become zero; the one that does not is the
change of sign, and it makes no zero. So the terms of whatever has been made are exactly the
coefficients other than zero, and what is asked of a polynomial can be answered from its terms:
whether it is zero, which degree it has, and whether it equals another one.

Of the numbers next to nothing is used: a change of sign makes no zero, zero equals itself, and it
does not matter on which side of a comparison a number stands.

§1 is coefficients, §2 what reduced polynomials tell, §3 the polynomials that can be made.
-/

namespace InkAlgebra.Polynomial

/-! ## §1  Coefficients -/

section

variable {α : Type} [Zero α]

theorem coefficient_cons {t : Term α} {rest : List (Term α)}
    (h : (t :: rest).Pairwise fun s t => s.1 < t.1) (d : UInt32) :
    (⟨t :: rest, h⟩ : Polynomial α).coefficient d =
      if t.1 = d then t.2 else (⟨rest, h.of_cons⟩ : Polynomial α).coefficient d := by
  by_cases hd : t.1 = d
  · simp [coefficient, hd]
  · simp [coefficient, hd]

/-- A degree that is not listed has coefficient zero. -/
theorem coefficient_of_forall_ne {p : Polynomial α} {d : UInt32} (h : ∀ t ∈ p.terms, t.1 ≠ d) :
    p.coefficient d = 0 := by
  have hfind : p.terms.find? (fun t => t.1 = d) = none := by simpa using h
  unfold coefficient
  rw [hfind]

/-- A listed degree has the coefficient that stands beside it. -/
theorem coefficient_of_mem {p : Polynomial α} {t : Term α} (h : t ∈ p.terms) :
    p.coefficient t.1 = t.2 := by
  obtain ⟨terms, hasc⟩ := p
  induction terms with
  | nil => cases h
  | cons s rest ih =>
      rw [coefficient_cons]
      rcases List.mem_cons.1 h with rfl | h
      · exact if_pos rfl
      · rw [if_neg (UInt32.ne_of_lt ((List.pairwise_cons.1 hasc).1 t h)), ih hasc.of_cons h]

theorem coefficient_cases (p : Polynomial α) (d : UInt32) :
    (∃ t ∈ p.terms, t.1 = d ∧ p.coefficient d = t.2) ∨ p.coefficient d = 0 := by
  by_cases h : ∃ t ∈ p.terms, t.1 = d
  · obtain ⟨t, ht, rfl⟩ := h
    exact .inl ⟨t, ht, rfl, coefficient_of_mem ht⟩
  · exact .inr (coefficient_of_forall_ne fun t ht htd => h ⟨t, ht, htd⟩)

/-- Below the lowest degree that is listed all coefficients are zero. -/
theorem coefficient_of_lt {t : Term α} {rest : List (Term α)}
    (h : (t :: rest).Pairwise fun s t => s.1 < t.1) {d : UInt32} (hd : d < t.1) :
    (⟨t :: rest, h⟩ : Polynomial α).coefficient d = 0 := by
  apply coefficient_of_forall_ne
  refine List.forall_mem_cons.2 ⟨(UInt32.ne_of_lt hd).symm, fun u hu => ?_⟩
  exact (UInt32.ne_of_lt (UInt32.lt_trans hd ((List.pairwise_cons.1 h).1 u hu))).symm

/-- The lowest degree that is listed is listed once. -/
theorem coefficient_rest {t : Term α} {rest : List (Term α)}
    (h : (t :: rest).Pairwise fun s t => s.1 < t.1) :
    (⟨rest, h.of_cons⟩ : Polynomial α).coefficient t.1 = 0 :=
  coefficient_of_forall_ne fun u hu => (UInt32.ne_of_lt ((List.pairwise_cons.1 h).1 u hu)).symm

/-- **Coefficients tell terms.** If the coefficients of two polynomials are related at every degree,
by a relation in which zero is related to itself and to nothing that is stored, then they have terms
at the same degrees, and related ones. -/
theorem forall₂_terms {r : α → α → Prop} (hzero : r 0 0) {p q : Polynomial α}
    (hp : ∀ t ∈ p.terms, ¬ r t.2 0) (hq : ∀ t ∈ q.terms, ¬ r 0 t.2)
    (h : ∀ d, r (p.coefficient d) (q.coefficient d)) :
    List.Forall₂ (fun s t => s.1 = t.1 ∧ r s.2 t.2) p.terms q.terms := by
  obtain ⟨left, hleft⟩ := p
  obtain ⟨right, hright⟩ := q
  induction left generalizing right with
  | nil =>
      cases right with
      | nil => exact .nil
      | cons t right =>
          have hhead := h t.1
          rw [coefficient_cons, if_pos rfl] at hhead
          exact absurd hhead (hq t List.mem_cons_self)
  | cons s left ih =>
      have hs : ¬ r s.2 0 := hp s List.mem_cons_self
      cases right with
      | nil =>
          have hhead := h s.1
          rw [coefficient_cons, if_pos rfl] at hhead
          exact absurd hhead hs
      | cons t right =>
          have ht : ¬ r 0 t.2 := hq t List.mem_cons_self
          have hdegree : s.1 = t.1 := by
            -- the lower one of two different degrees would be listed on one side only
            by_contra hne
            rcases UInt32.lt_or_lt_of_ne hne with hlt | hlt
            · have hhead := h s.1
              rw [coefficient_cons, if_pos rfl, coefficient_of_lt hright hlt] at hhead
              exact hs hhead
            · have hhead := h t.1
              rw [coefficient_of_lt hleft hlt, coefficient_cons, if_pos rfl] at hhead
              exact ht hhead
          have hhead := h s.1
          rw [coefficient_cons, coefficient_cons, if_pos rfl, if_pos hdegree.symm] at hhead
          have htail : ∀ d, r ((⟨left, hleft.of_cons⟩ : Polynomial α).coefficient d)
              ((⟨right, hright.of_cons⟩ : Polynomial α).coefficient d) := by
            intro d
            by_cases hd : s.1 = d
            · subst hd
              rw [coefficient_rest hleft, hdegree, coefficient_rest hright]
              exact hzero
            · have hrest := h d
              rwa [coefficient_cons, coefficient_cons, if_neg hd, if_neg (hdegree ▸ hd)] at hrest
          exact .cons ⟨hdegree, hhead⟩
            (ih hleft.of_cons (fun u hu => hp u (List.mem_cons_of_mem s hu)) right
            hright.of_cons (fun u hu => hq u (List.mem_cons_of_mem t hu)) htail)

/-- Terms at the same degrees that are related make related coefficients. -/
theorem coefficient_of_forall₂ {r : α → α → Prop} (hzero : r 0 0) {p q : Polynomial α}
    (h : List.Forall₂ (fun s t => s.1 = t.1 ∧ r s.2 t.2) p.terms q.terms) (d : UInt32) :
    r (p.coefficient d) (q.coefficient d) := by
  obtain ⟨left, hleft⟩ := p
  obtain ⟨right, hright⟩ := q
  dsimp only at h
  induction h with
  | nil => exact hzero
  | @cons s t left right hst _ ih =>
      obtain ⟨hdegree, hrelated⟩ := hst
      rw [coefficient_cons, coefficient_cons, hdegree]
      split
      · exact hrelated
      · exact ih hleft.of_cons hright.of_cons

end

/-! ## §2  Reduced polynomials -/

section

variable {α : Type} [Coefficient α] {p q : Polynomial α}

/-- Rows of terms compare as equal if they list the same degrees with coefficients that do. -/
theorem beq_terms_iff {left right : List (Term α)} :
    (left == right) = true ↔
      List.Forall₂ (fun s t => s.1 = t.1 ∧ (s.2 == t.2) = true) left right := by
  induction left generalizing right with
  | nil => cases right <;> simp
  | cons s left ih =>
      cases right with
      | nil => simp
      | cons t right =>
          have hterm : (s == t) = true ↔ s.1 = t.1 ∧ (s.2 == t.2) = true := by
            show (s.1 == t.1 && s.2 == t.2) = true ↔ _
            simp
          rw [List.forall₂_cons, ← ih, ← hterm]
          exact Bool.and_eq_true_iff

namespace Reduced

variable [LawfulComparison α]

theorem isZero_iff (h : p.Reduced) : p.isZero = true ↔ ∀ d, (p.coefficient d == 0) = true := by
  rw [isZero, List.isEmpty_iff]
  constructor
  · intro hterms d
    rw [coefficient_of_forall_ne (by simp [hterms])]
    exact LawfulComparison.zero_beq_zero
  · intro hzero
    refine List.eq_nil_iff_forall_not_mem.2 fun t ht => ?_
    have hcoefficient := hzero t.1
    rw [coefficient_of_mem ht, h t ht] at hcoefficient
    cases hcoefficient

/-- The degree is the highest one at which the coefficient is not zero. -/
theorem isGreatest_degree (h : p.Reduced) (hzero : p.isZero = false) :
    IsGreatest {d | (p.coefficient d == 0) = false} p.degree := by
  constructor
  · cases hlast : p.terms.getLast? with
    | none =>
        rw [isZero, List.getLast?_eq_none_iff.1 hlast] at hzero
        cases hzero
    | some t =>
        have ht : t ∈ p.terms := List.mem_of_getLast? hlast
        have hdegree : p.degree = t.1 := by simp [degree, leading?, hlast]
        show (p.coefficient p.degree == 0) = false
        rw [hdegree, coefficient_of_mem ht]
        exact h t ht
  · intro d hd
    rcases coefficient_cases p d with ⟨t, ht, rfl, _⟩ | hnone
    · exact UInt32.le_iff_toNat_le.2 (le_degree ht)
    · have hd' : (p.coefficient d == 0) = false := hd
      rw [hnone, LawfulComparison.zero_beq_zero] at hd'
      cases hd'

/-- Two reduced polynomials compare as equal if their coefficients do, at every degree. -/
theorem equals_iff (hp : p.Reduced) (hq : q.Reduced) :
    p.equals q = true ↔ ∀ d, (p.coefficient d == q.coefficient d) = true := by
  have hzero : ((0 : α) == 0) = true := LawfulComparison.zero_beq_zero
  refine beq_terms_iff.trans ⟨coefficient_of_forall₂ (r := fun b c => (b == c) = true) hzero, ?_⟩
  refine forall₂_terms (r := fun b c => (b == c) = true) hzero (fun t ht => ?_) fun t ht => ?_
  · rw [hp t ht]
    exact Bool.noConfusion
  · rw [LawfulComparison.beq_comm, hq t ht]
    exact Bool.noConfusion

/-- Two reduced polynomials are the same if their coefficients are. -/
theorem eq_iff (hp : p.Reduced) (hq : q.Reduced) :
    p = q ↔ ∀ d, p.coefficient d = q.coefficient d := by
  have hne {c : α} (hc : (c == 0) = false) : c ≠ 0 := by
    rintro rfl
    rw [LawfulComparison.zero_beq_zero] at hc
    cases hc
  refine ⟨fun h d => h ▸ rfl, fun h => eq_of_terms ?_⟩
  have hterms := forall₂_terms (r := Eq) rfl (fun t ht => hne (hp t ht))
      (fun t ht => (hne (hq t ht)).symm) h
  rw [← List.forall₂_eq_eq_eq]
  exact hterms.imp fun s t hst => Prod.ext hst.1 hst.2

end Reduced

end

/-! ## §3  Polynomials that can be made -/

section

variable {α : Type} [Coefficient α]

/-- The polynomials that can be made: from terms, from a number, as the variable, from a text, and
from others by the operations. -/
inductive Made : Polynomial α → Prop
  | ofTerms (row : List (Term α)) : Made (ofTerms row)
  | constant (c : α) : Made (constant c)
  | indeterminate : Made indeterminate
  | plus {p q : Polynomial α} : Made p → Made q → Made (p.plus q)
  | minus {p q : Polynomial α} : Made p → Made q → Made (p.minus q)
  | neg {p : Polynomial α} : Made p → Made p.neg
  | multiply {p q r : Polynomial α} : Made p → Made q → p.multiply q = .ok r → Made r
  | divide {p q r : Polynomial α} : Made p → Made q → p.divide q = .ok r → Made r
  | power {p q r : Polynomial α} {maxDegree : UInt32} :
      Made p → Made q → p.power q maxDegree = .ok r → Made r
  | derivative {p : Polynomial α} : Made p → Made p.derivative
  | ofExpression {p : Polynomial α} {maxDegree : UInt32} {text : List Char} :
      ofExpression maxDegree text = .ok p → Made p

/-- **No zero is stored** in a polynomial that has been made. -/
theorem Made.reduced [LawfulZero α] {p : Polynomial α} (h : Made p) : p.Reduced := by
  induction h with
  | ofTerms _ | constant _ | indeterminate | plus _ _ | minus _ _ | derivative _ =>
      exact reduced_ofTerms _
  | neg _ ih => exact ih.neg
  | multiply _ _ hr => exact reduced_of_multiply hr
  | divide _ _ hr => exact reduced_of_divide hr
  | power _ _ hr => exact reduced_of_power hr
  | ofExpression hp => exact reduced_of_ofExpression hp

/-- **Terms are coefficients.** Of polynomials that have been made, each stores its coefficients
other than zero and no more. It is the zero polynomial if all its coefficients are zero, and
otherwise its degree is the highest one at which the coefficient is not; two of them compare as
equal if their coefficients do at every degree, and are the same if these are. -/
theorem Made.stores_coefficients [LawfulZero α] [LawfulComparison α] {p q : Polynomial α}
    (hp : Made p) (hq : Made q) :
    (∀ t ∈ p.terms, (t.2 == 0) = false) ∧
      (p.isZero = true ↔ ∀ d, (p.coefficient d == 0) = true) ∧
      (p.isZero = true → p.degree = 0) ∧
      (p.isZero = false → IsGreatest {d | (p.coefficient d == 0) = false} p.degree) ∧
      (p.equals q = true ↔ ∀ d, (p.coefficient d == q.coefficient d) = true) ∧
      (p = q ↔ ∀ d, p.coefficient d = q.coefficient d) := by
  have hreduced := hp.reduced
  refine ⟨hreduced, hreduced.isZero_iff, ?_, hreduced.isGreatest_degree,
    hreduced.equals_iff hq.reduced, hreduced.eq_iff hq.reduced⟩
  intro hzero
  have hterms : p.terms = [] := List.isEmpty_iff.1 hzero
  simp [degree, leading?, hterms]

end

/-- The square of `x + 1/2` less `x^2`, in which the squares cancel out. -/
def squareRemainder : Except (Halt (EquationError Float)) (Polynomial Float) := do
  let sum : Polynomial Float := ofTerms [(0, 0.5), (1, 1)]
  let square ← indeterminate.multiply indeterminate
  return (← sum.multiply sum).minus square

theorem made_of_squareRemainder {p : Polynomial Float} (h : squareRemainder = .ok p) : Made p := by
  obtain ⟨square, hsquare, h⟩ := exists_of_bind_eq_ok h
  obtain ⟨product, hproduct, h⟩ := exists_of_bind_eq_ok h
  obtain rfl := Except.ok.inj h
  exact ((Made.ofTerms _).multiply (.ofTerms _) hproduct).minus
    (Made.indeterminate.multiply .indeterminate hsquare)

/-- What has cancelled out is not stored: the remainder has degree one and is `x + 1/4`. -/
theorem squareRemainder_stores_coefficients :
    Made (ofTerms [(1, 1), (0, (0.25 : Float))]) ∧
      ∃ p, squareRemainder = .ok p ∧ Made p ∧
        p.degree = 1 ∧ IsGreatest {d | (p.coefficient d == 0) = false} p.degree ∧
        p.equals (ofTerms [(1, 1), (0, 0.25)]) = true ∧
        ∀ d, (p.coefficient d == (ofTerms [(1, 1), (0, (0.25 : Float))]).coefficient d) = true := by
  have hother : Made (ofTerms [(1, 1), (0, (0.25 : Float))]) := .ofTerms _
  obtain ⟨p, hp, hparts⟩ : ∃ p, squareRemainder.toOption = some p ∧
      (p.degree == 1 && !p.isZero && p.equals (ofTerms [(1, 1), (0, 0.25)])) = true :=
    (Option.any_eq_true ..).1 (by decide +kernel)
  simp only [Bool.and_eq_true, beq_iff_eq, Bool.not_eq_true'] at hparts
  obtain ⟨⟨hone, hzero⟩, hsame⟩ := hparts
  have hp := eq_ok_of_toOption hp
  have hmade := made_of_squareRemainder hp
  obtain ⟨_, _, _, hdegree, hequals, _⟩ := hmade.stores_coefficients hother
  exact ⟨hother, p, hp, hmade, hone, hdegree hzero, hsame, hequals.1 hsame⟩

end InkAlgebra.Polynomial

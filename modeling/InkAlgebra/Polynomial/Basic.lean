import InkAlgebra.Error
import InkAlgebra.Number.Scalar

/-!
# Sparse polynomials in one variable

A polynomial is the list of its terms, strictly ascending in degree; a degree that is not listed has
coefficient zero. Every operation that adds coefficients drops those that compare equal to zero, so
that the zero polynomial is the empty list and the degree can be read off the last term.

Polynomials stay closed under the operations because a divisor and an exponent have to be constants.
Degrees are 32-bit words: the cap on powers keeps single powers inside the range, and a product with
a degree beyond it breaks off the run.

§1 is the type, §2 its terms, §3 the arithmetic, §4 values, §5 degrees of derivatives.
-/

namespace InkAlgebra

/-! ## §1  The type -/

abbrev Term (α : Type) := UInt32 × α

structure Polynomial (α : Type) where
  terms : List (Term α)
  ascending : terms.Pairwise (fun s t => s.1 < t.1)

namespace Polynomial

variable {α : Type}

theorem eq_of_terms {p q : Polynomial α} (h : p.terms = q.terms) : p = q := by
  obtain ⟨terms, hasc⟩ := p
  cases h
  rfl

/-- Adds a coefficient at a degree to a list of ascending terms. -/
def addTerm [Zero α] [Add α] (d : UInt32) (c : α) : List (Term α) → List (Term α)
  | [] => [(d, 0 + c)]
  | (e, b) :: rest =>
    if d < e then (d, 0 + c) :: (e, b) :: rest
    else if d = e then (e, b + c) :: rest
    else (e, b) :: addTerm d c rest

theorem degree_of_mem_addTerm [Zero α] [Add α] {d : UInt32} {c : α} {t : Term α}
    {terms : List (Term α)} (h : t ∈ addTerm d c terms) : t.1 = d ∨ ∃ s ∈ terms, t.1 = s.1 := by
  induction terms with
  | nil => simp_all [addTerm]
  | cons s rest ih =>
    simp only [addTerm] at h
    grind

theorem addTerm_ascending [Zero α] [Add α] {d : UInt32} {c : α} {terms : List (Term α)}
    (h : terms.Pairwise (fun s t => s.1 < t.1)) :
    (addTerm d c terms).Pairwise (fun s t => s.1 < t.1) := by
  induction terms with
  | nil => simp [addTerm]
  | cons s rest ih =>
    obtain ⟨e, b⟩ := s
    rw [List.pairwise_cons] at h
    simp only [addTerm]
    split
    · rename_i hd
      refine List.pairwise_cons.2 ⟨?_, List.pairwise_cons.2 h⟩
      intro t ht
      rcases List.mem_cons.1 ht with rfl | ht
      · exact hd
      · exact UInt32.lt_trans hd (h.1 t ht)
    · split
      · exact List.pairwise_cons.2 h
      · rename_i hd hne
        refine List.pairwise_cons.2 ⟨?_, ih h.2⟩
        intro t ht
        rcases degree_of_mem_addTerm ht with hdeg | ⟨s, hs, hdeg⟩
        · rw [hdeg]
          exact UInt32.lt_of_le_of_ne (UInt32.not_lt.1 hd) (Ne.symm hne)
        · rw [hdeg]
          exact h.1 s hs

/-- The sum of a row of terms; terms of one degree are added up in the order of the row. -/
def sumTerms [Zero α] [Add α] (row : List (Term α)) : List (Term α) :=
  row.foldl (fun sum t => addTerm t.1 t.2 sum) []

theorem sumTerms_ascending [Zero α] [Add α] (row : List (Term α)) :
    (sumTerms row).Pairwise (fun s t => s.1 < t.1) := by
  suffices ∀ sum : List (Term α), sum.Pairwise (fun s t => s.1 < t.1) →
      (row.foldl (fun sum t => addTerm t.1 t.2 sum) sum).Pairwise (fun s t => s.1 < t.1) from
    this [] List.Pairwise.nil
  induction row with
  | nil => exact fun _ h => h
  | cons t rest ih => exact fun sum h => ih _ (addTerm_ascending h)

theorem degree_of_mem_sumTerms [Zero α] [Add α] {row : List (Term α)} {t : Term α}
    (h : t ∈ sumTerms row) : ∃ s ∈ row, t.1 = s.1 := by
  suffices ∀ sum : List (Term α), t ∈ row.foldl (fun sum t => addTerm t.1 t.2 sum) sum →
      (∃ s ∈ sum, t.1 = s.1) ∨ ∃ s ∈ row, t.1 = s.1 by
    rcases this [] h with ⟨s, hs, _⟩ | h
    · cases hs
    · exact h
  clear h
  induction row with
  | nil => exact fun sum h => .inl ⟨t, h, rfl⟩
  | cons u rest ih =>
    intro sum h
    rcases ih _ h with ⟨s, hs, hdeg⟩ | ⟨s, hs, hdeg⟩
    · rcases degree_of_mem_addTerm hs with hu | ⟨v, hv, hsv⟩
      · exact .inr ⟨u, List.mem_cons_self, hdeg.trans hu⟩
      · exact .inl ⟨v, hv, hdeg.trans hsv⟩
    · exact .inr ⟨s, List.mem_cons_of_mem _ hs, hdeg⟩

section

variable [Scalar α]

/-- The polynomial with the given terms; repeated degrees add up, and what adds up to zero is
dropped. -/
def ofTerms (row : List (Term α)) : Polynomial α where
  terms := (sumTerms row).filter fun t => !(t.2 == 0)
  ascending := (sumTerms_ascending row).filter _

theorem degree_of_mem_ofTerms {row : List (Term α)} {t : Term α} (h : t ∈ (ofTerms row).terms) :
    ∃ s ∈ row, t.1 = s.1 :=
  degree_of_mem_sumTerms (List.mem_filter.1 h).1

end

/-! ## §2  Terms -/

def zero : Polynomial α := ⟨[], List.Pairwise.nil⟩

def isZero (p : Polynomial α) : Bool := p.terms.isEmpty

def leading? (p : Polynomial α) : Option (Term α) := p.terms.getLast?

/-- The highest degree; zero for the zero polynomial. -/
def degree (p : Polynomial α) : UInt32 :=
  match p.leading? with
  | some t => t.1
  | none => 0

def isConstant (p : Polynomial α) : Bool := p.degree = 0

def coefficient [Zero α] (p : Polynomial α) (d : UInt32) : α :=
  match p.terms.find? fun t => t.1 = d with
  | some t => t.2
  | none => 0

/-- All coefficients, from the highest degree down to the constant. -/
def fullCoefficients [Zero α] (p : Polynomial α) : List α :=
  (List.range (p.degree.toNat + 1)).reverse.map fun d => p.coefficient (.ofNat d)

theorem degree_lt {p : Polynomial α} {n : Nat} (hn : 0 < n)
    (h : ∀ t ∈ p.terms, t.1.toNat < n) : p.degree.toNat < n := by
  simp only [degree]
  split
  · rename_i t ht
    exact h t (List.mem_of_getLast? ht)
  · simpa using hn

theorem le_degree {p : Polynomial α} {t : Term α} (h : t ∈ p.terms) :
    t.1.toNat ≤ p.degree.toNat := by
  obtain ⟨terms, hasc⟩ := p
  simp only [degree, leading?] at h ⊢
  rcases List.eq_nil_or_concat terms with rfl | ⟨front, last, rfl⟩
  · cases h
  · simp only [List.concat_eq_append, List.getLast?_append, List.getLast?_singleton,
      Option.some_or]
    simp only [List.concat_eq_append, List.pairwise_append, List.mem_append,
      List.mem_singleton] at h hasc
    rcases h with h | rfl
    · exact Nat.le_of_lt (UInt32.lt_iff_toNat_lt.1 (hasc.2.2 t h last rfl))
    · exact Nat.le_refl _

theorem isZero_eq_false_of_degree_ne_zero {p : Polynomial α} (h : p.degree.toNat ≠ 0) :
    p.isZero = false := by
  rw [Bool.eq_false_iff]
  intro hzero
  rw [isZero, List.isEmpty_iff] at hzero
  refine h ?_
  rw [degree, leading?, hzero]
  rfl

theorem exists_mem_degree {p : Polynomial α} (h : p.isZero = false) :
    ∃ t ∈ p.terms, t.1 = p.degree := by
  rw [isZero, Bool.eq_false_iff, ne_eq, List.isEmpty_iff] at h
  have hlast := List.getLast?_eq_some_getLast h
  refine ⟨_, List.getLast_mem h, ?_⟩
  rw [degree, leading?, hlast]

variable [Scalar α]

/-- Two polynomials are equal if they have equal coefficients at the same degrees; a coefficient
that differs from itself makes them differ. -/
def equals (p q : Polynomial α) : Bool := p.terms == q.terms

def constant (c : α) : Polynomial α := ofTerms [(0, c)]

def indeterminate : Polynomial α := ofTerms [(1, 1)]

/-! ## §3  Arithmetic -/

def plus (p q : Polynomial α) : Polynomial α := ofTerms (p.terms ++ q.terms)

def neg (p : Polynomial α) : Polynomial α where
  terms := p.terms.map fun t => (t.1, -t.2)
  ascending := p.ascending.map _ fun _ _ h => h

def minus (p q : Polynomial α) : Polynomial α := p.plus q.neg

/-- Whether no sum of degrees in a product needs more than 32 bits. -/
def SumsFit (p q : Polynomial α) : Prop :=
  ∀ s ∈ p.terms, ∀ t ∈ q.terms, s.1.toNat + t.1.toNat < UInt32.size

instance (p q : Polynomial α) : Decidable (p.SumsFit q) :=
  inferInstanceAs (Decidable (∀ s ∈ p.terms, ∀ t ∈ q.terms, _ < _))

/-- All products of a term of the one polynomial and a term of the other. -/
def termProducts (p q : Polynomial α) : List (Term α) :=
  p.terms.flatMap fun s => q.terms.map fun t => (s.1 + t.1, s.2 * t.2)

/-- The product; a sum of degrees that has no room in 32 bits breaks off the run. -/
def multiply (p q : Polynomial α) : Except (Halt (EquationError α)) (Polynomial α) :=
  if p.SumsFit q then .ok (ofTerms (p.termProducts q)) else .error .overflow

omit [Scalar α] in
/-- Next to zero nothing is added up. Otherwise the sum of the two degrees is the largest. -/
theorem sumsFit_iff {p q : Polynomial α} :
    p.SumsFit q ↔
      (p.isZero = false → q.isZero = false → p.degree.toNat + q.degree.toNat < UInt32.size) := by
  constructor
  · intro h hp hq
    obtain ⟨s, hs, hsdegree⟩ := exists_mem_degree hp
    obtain ⟨t, ht, htdegree⟩ := exists_mem_degree hq
    rw [← hsdegree, ← htdegree]
    exact h s hs t ht
  · intro h s hs t ht
    have hp : p.isZero = false := List.isEmpty_eq_false_iff.2 (List.ne_nil_of_mem hs)
    have hq : q.isZero = false := List.isEmpty_eq_false_iff.2 (List.ne_nil_of_mem ht)
    exact Nat.lt_of_le_of_lt (Nat.add_le_add (le_degree hs) (le_degree ht)) (h hp hq)

theorem multiply_of_sumsFit {p q : Polynomial α} (h : p.SumsFit q) :
    p.multiply q = .ok (ofTerms (p.termProducts q)) := if_pos h

theorem multiply_of_lt {p q : Polynomial α} (h : p.degree.toNat + q.degree.toNat < UInt32.size) :
    p.multiply q = .ok (ofTerms (p.termProducts q)) :=
  multiply_of_sumsFit (sumsFit_iff.2 fun _ _ => h)

theorem multiply_eq_ok {p q r : Polynomial α} (h : p.multiply q = .ok r) :
    p.SumsFit q ∧ r = ofTerms (p.termProducts q) := by
  unfold multiply at h
  split at h
  · rename_i hfit
    exact ⟨hfit, (Except.ok.inj h).symm⟩
  · cases h

/-- A product fails in no other way. -/
theorem multiply_eq_error_iff {p q : Polynomial α} {e : Halt (EquationError α)} :
    p.multiply q = .error e ↔ e = .overflow ∧ ¬ p.SumsFit q := by
  unfold multiply
  split
  · rename_i hfit
    simp [hfit]
  · rename_i hfit
    simp [hfit, eq_comm]

/-- The product of two results. -/
def multiplyResults (x y : Except (Halt (EquationError α)) (Polynomial α)) :
    Except (Halt (EquationError α)) (Polynomial α) := do
  (← x).multiply (← y)

/-- The quotient by a constant other than zero. -/
def divide (p divisor : Polynomial α) : Except (EvaluationError α) (Polynomial α) :=
  if !divisor.isConstant then .error .divisorNotConstant
  else
    let c := divisor.coefficient 0
    if c == 0 then .error .divisionByZero
    else .ok (ofTerms (p.terms.map fun t => (t.1, t.2 / c)))

def derivative (p : Polynomial α) : Polynomial α :=
  ofTerms ((p.terms.filter fun t => 1 ≤ t.1).map fun t =>
    (t.1 - 1, t.2 * Scalar.ofNat t.1.toNat))

/-! ## §4  Powers and values -/

variable {β : Type} [Coefficient β]

/-- The power with a constant exponent that is whole and not negative. The degree of the result is
checked before it is computed. -/
def power (p exponent : Polynomial β) (maxDegree : UInt32) :
    Except (Halt (EquationError β)) (Polynomial β) :=
  if !exponent.isConstant then .error (.unsolvable .exponentNotConstant)
  else
    let n := exponent.coefficient 0
    if !Coefficient.isWhole n then .error (.unsolvable (.fractionalPower n))
    else if n < 0 then .error (.unsolvable (.negativePower n))
    else if p.isConstant then .ok (constant (Coefficient.pow (p.coefficient 0) n))
    else
      let degree : β := Scalar.ofNat p.degree.toNat * n
      if Scalar.ofNat maxDegree.toNat < degree then
        .error (.tooComplex ⟨Coefficient.toCount degree, maxDegree.toNat⟩)
      else Scalar.raise multiplyResults (.ok (constant 1)) (.ok p) (Coefficient.toCount n)

/-- The sign that the values end up with far to the left or far to the right: that of the leading
coefficient, turned around at the left of an odd degree; zero for the zero polynomial. -/
def limitSign (p : Polynomial α) (left : Bool) : α :=
  match p.leading? with
  | none => 0
  | some (d, c) => if left && d % 2 == 1 then -Scalar.sign c else Scalar.sign c

/-- The value at a number. The sum runs in ascending degree and starts below every zero, so that
the zero polynomial has value `-0` where that is a number of its own; at an infinity the leading
term alone decides. -/
def eval (p : Polynomial β) (x : β) : β :=
  if Coefficient.isInfinite x then
    if p.isZero then 0 else p.limitSign (x < 0) * Scalar.abs x
  else
    p.terms.foldl (fun sum t => sum + t.2 * Coefficient.pow x (Scalar.ofNat t.1.toNat)) (-0)

/-! ## §5  Degrees of derivatives -/

theorem toNat_lt_of_mem_derivative {p : Polynomial α} {t : Term α} (ht : t ∈ p.derivative.terms) :
    t.1.toNat < p.degree.toNat := by
  obtain ⟨s, hs, hts⟩ := degree_of_mem_ofTerms ht
  obtain ⟨u, hu, rfl⟩ := List.mem_map.1 hs
  obtain ⟨hmem, hone⟩ := List.mem_filter.1 hu
  have hone : 1 ≤ u.1 := of_decide_eq_true hone
  have hle := le_degree hmem
  have hone' : 1 ≤ u.1.toNat := UInt32.le_iff_toNat_le.1 hone
  rw [hts]
  simp only [UInt32.toNat_sub_of_le _ _ hone]
  have : (1 : UInt32).toNat = 1 := rfl
  omega

theorem degree_derivative_lt {p : Polynomial α} (h : 1 ≤ p.degree.toNat) :
    p.derivative.degree.toNat < p.degree.toNat :=
  degree_lt h fun _ ht => toNat_lt_of_mem_derivative ht

theorem degree_derivative_le (p : Polynomial α) : p.derivative.degree ≤ p.degree := by
  refine UInt32.le_iff_toNat_le.2 (Nat.le_of_lt_succ (degree_lt (Nat.succ_pos _) ?_))
  intro t ht
  exact Nat.lt_succ_of_lt (toNat_lt_of_mem_derivative ht)

end Polynomial

end InkAlgebra

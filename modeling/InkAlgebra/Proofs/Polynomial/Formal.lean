import Mathlib
import InkAlgebra.Proofs.Number.Laws
import InkAlgebra.Proofs.Polynomial.Degrees

/-!
# Sparse polynomials as formal polynomials

Over exact coefficients a list of terms stands for a formal polynomial, and each operation on lists
is the ring operation on what they stand for. `Denotes p q` says that `p` stands for `q` and stores
no zero, and the second half is what lets the degree be read off the last term.

Degrees are words of 32 bits, and a product whose degree needs more breaks off. Multiplication is
therefore the one operation that has a result only under a condition: the degrees of the factors
have to add up to less than `2 ^ 32`. A power has no such condition of its own, for its degree is
checked against a 32-bit cap before anything is multiplied, and no factor on the way has a higher
degree than the result.

§1 is the sum of a list of terms, §2 what can be read off it, §3 the ring operations, §4 how
failures go together, §5 products, quotients and powers, §6 values.
-/

open Polynomial

namespace InkAlgebra.Polynomial

open Exact

/-! ## §1  Sums of terms -/

section Sums

variable {K : Type} [Semiring K]

/-- The formal polynomial with the given terms. -/
noncomputable def formalSum (terms : List (Term K)) : K[X] :=
  (terms.map fun t => monomial t.1.toNat t.2).sum

@[simp] theorem formalSum_nil : formalSum ([] : List (Term K)) = 0 := rfl

@[simp] theorem formalSum_cons (t : Term K) (terms : List (Term K)) :
    formalSum (t :: terms) = monomial t.1.toNat t.2 + formalSum terms := by
  simp [formalSum]

@[simp] theorem formalSum_append (front back : List (Term K)) :
    formalSum (front ++ back) = formalSum front + formalSum back := by
  simp [formalSum]

theorem formalSum_addTerm (d : UInt32) (c : K) (terms : List (Term K)) :
    formalSum (addTerm d c terms) = formalSum terms + monomial d.toNat c := by
  induction terms with
  | nil => simp [addTerm]
  | cons t rest ih =>
      obtain ⟨e, b⟩ := t
      unfold addTerm
      split
      · rw [formalSum_cons, zero_add, add_comm]
      · split
        · rename_i hde
          subst hde
          rw [formalSum_cons, formalSum_cons, map_add]
          abel
        · rw [formalSum_cons, formalSum_cons, ih, add_assoc]

/-- The products of a term with those of a row, none of whose degrees needs more than 32 bits. -/
theorem formalSum_map_mul (s : Term K) {row : List (Term K)}
    (h : ∀ t ∈ row, s.1.toNat + t.1.toNat < UInt32.size) :
    formalSum (row.map fun t => (s.1 + t.1, s.2 * t.2)) =
      monomial s.1.toNat s.2 * formalSum row := by
  induction row with
  | nil => simp
  | cons t rest ih =>
      obtain ⟨ht, hrest⟩ := List.forall_mem_cons.1 h
      have hdegree : (s.1 + t.1).toNat = s.1.toNat + t.1.toNat := by
        rw [UInt32.toNat_add]
        exact Nat.mod_eq_of_lt ht
      rw [List.map_cons, formalSum_cons, formalSum_cons, mul_add, monomial_mul_monomial, ih hrest,
        hdegree]

theorem formalSum_flatMap_mul {row row' : List (Term K)}
    (h : ∀ s ∈ row, ∀ t ∈ row', s.1.toNat + t.1.toNat < UInt32.size) :
    formalSum (row.flatMap fun s => row'.map fun t => (s.1 + t.1, s.2 * t.2)) =
      formalSum row * formalSum row' := by
  induction row with
  | nil => simp
  | cons s rest ih =>
      obtain ⟨hs, hrest⟩ := List.forall_mem_cons.1 h
      rw [List.flatMap_cons, formalSum_append, formalSum_cons, add_mul, formalSum_map_mul s hs,
        ih hrest]

theorem formalSum_sumTerms (row : List (Term K)) : formalSum (sumTerms row) = formalSum row := by
  suffices ∀ sum : List (Term K),
      formalSum (row.foldl (fun sum t => addTerm t.1 t.2 sum) sum) =
          formalSum sum + formalSum row by
    simpa [sumTerms] using this []
  induction row with
  | nil => simp
  | cons t rest ih =>
      intro sum
      rw [List.foldl_cons, ih, formalSum_addTerm, formalSum_cons, add_assoc]

/-- A degree that no term has has coefficient zero. -/
theorem coeff_formalSum_eq_zero {n : Nat} {terms : List (Term K)} (h : ∀ t ∈ terms, t.1.toNat ≠ n) :
    (formalSum terms).coeff n = 0 := by
  induction terms with
  | nil => simp
  | cons t rest ih =>
      rw [formalSum_cons, coeff_add, coeff_monomial, if_neg (h t List.mem_cons_self),
        ih fun s hs => h s (List.mem_cons_of_mem t hs), add_zero]

/-- No sum of terms needs a degree of more than 32 bits. -/
theorem natDegree_formalSum_lt (terms : List (Term K)) : (formalSum terms).natDegree < 2 ^ 32 := by
  have hle : (formalSum terms).natDegree ≤ 2 ^ 32 - 1 := by
    rw [natDegree_le_iff_coeff_eq_zero]
    intro n hn
    refine coeff_formalSum_eq_zero fun t _ ht => ?_
    have := t.1.toNat_lt
    omega
  omega

/-- Of ascending terms each one is the coefficient at its degree. -/
theorem coeff_formalSum_of_mem {t : Term K} {terms : List (Term K)}
    (hasc : terms.Pairwise fun s t => s.1 < t.1) (h : t ∈ terms) :
    (formalSum terms).coeff t.1.toNat = t.2 := by
  induction terms with
  | nil => cases h
  | cons s rest ih =>
      obtain ⟨hs, hrest⟩ := List.pairwise_cons.1 hasc
      rw [formalSum_cons, coeff_add, coeff_monomial]
      rcases List.mem_cons.1 h with rfl | h
      · rw [if_pos rfl, coeff_formalSum_eq_zero, add_zero]
        intro u hu
        exact Nat.ne_of_gt (UInt32.lt_iff_toNat_lt.1 (hs u hu))
      · rw [if_neg (Nat.ne_of_lt (UInt32.lt_iff_toNat_lt.1 (hs t h))), ih hrest h, zero_add]

end Sums

theorem formalSum_map_neg {K : Type} [Ring K] (terms : List (Term K)) :
    formalSum (terms.map fun t => (t.1, -t.2)) = -formalSum terms := by
  induction terms with
  | nil => simp
  | cons t rest ih => rw [List.map_cons, formalSum_cons, formalSum_cons, ih, neg_add, ← map_neg]

theorem formalSum_map_div {K : Type} [Field K] (c : K) (terms : List (Term K)) :
    formalSum (terms.map fun t => (t.1, t.2 / c)) = formalSum terms * C c⁻¹ := by
  induction terms with
  | nil => simp
  | cons t rest ih =>
      rw [List.map_cons, formalSum_cons, formalSum_cons, ih, add_mul,
        monomial_mul_C, div_eq_mul_inv]

/-! ## §2  What a polynomial stands for -/

section

variable {K : Type} [Semiring K]

/-- A polynomial stands for a formal one if its terms sum up to that and none of them is zero. -/
structure Denotes (p : Polynomial K) (q : K[X]) : Prop where
  formalSum_eq : formalSum p.terms = q
  ne_zero : ∀ t ∈ p.terms, t.2 ≠ 0

namespace Denotes

variable {p : Polynomial K} {q : K[X]}

theorem coeff_of_mem (h : Denotes p q) {t : Term K} (ht : t ∈ p.terms) :
    q.coeff t.1.toNat = t.2 := by
  rw [← h.formalSum_eq]
  exact coeff_formalSum_of_mem p.ascending ht

theorem natDegree (h : Denotes p q) : p.degree.toNat = q.natDegree := by
  cases hlast : p.terms.getLast? with
  | none =>
      have hdeg : p.degree = 0 := by simp [degree, leading?, hlast]
      rw [hdeg, ← h.formalSum_eq, List.getLast?_eq_none_iff.1 hlast]
      simp
  | some t =>
      have ht : t ∈ p.terms := List.mem_of_getLast? hlast
      have hdeg : p.degree = t.1 := by simp [degree, leading?, hlast]
      rw [hdeg]
      symm
      apply natDegree_eq_of_le_of_coeff_ne_zero
      · rw [natDegree_le_iff_coeff_eq_zero]
        intro n hn
        rw [← h.formalSum_eq]
        refine coeff_formalSum_eq_zero fun s hs hsn => ?_
        have := le_degree hs
        rw [hdeg] at this
        omega
      · rw [h.coeff_of_mem ht]
        exact h.ne_zero t ht

theorem isConstant_iff (h : Denotes p q) : p.isConstant = true ↔ q.natDegree = 0 := by
  rw [← h.natDegree, isConstant, decide_eq_true_iff, ← UInt32.toNat_inj]
  rfl

theorem coefficient (h : Denotes p q) (d : UInt32) : p.coefficient d = q.coeff d.toNat := by
  unfold Polynomial.coefficient
  cases hfind : p.terms.find? fun t => t.1 = d with
  | none =>
      rw [← h.formalSum_eq]
      refine (coeff_formalSum_eq_zero fun t ht htd => ?_).symm
      exact List.find?_eq_none.1 hfind t ht (decide_eq_true (UInt32.toNat_inj.1 htd))
  | some t =>
      have htd : t.1 = d := by simpa using List.find?_some hfind
      rw [← htd]
      exact (h.coeff_of_mem (List.mem_of_find?_eq_some hfind)).symm

theorem eq_C (h : Denotes p q) (hp : p.isConstant = true) : q = C (p.coefficient 0) := by
  rw [h.coefficient 0]
  exact eq_C_of_natDegree_eq_zero (h.isConstant_iff.1 hp)

theorem isZero_iff (h : Denotes p q) : p.isZero = true ↔ q = 0 := by
  rw [isZero, List.isEmpty_iff]
  constructor
  · intro hnil
    rw [← h.formalSum_eq, hnil, formalSum_nil]
  · intro hzero
    apply List.eq_nil_iff_forall_not_mem.2
    intro t ht
    apply h.ne_zero t ht
    rw [← h.coeff_of_mem ht, hzero, coeff_zero]

end Denotes

end

/-! ## §3  Ring operations -/

section

variable {K : Type} [Field K] [LinearOrder K]

theorem formalSum_filter_ne_zero (terms : List (Term K)) :
    formalSum (terms.filter fun t => !(t.2 == 0)) = formalSum terms := by
  induction terms with
  | nil => rfl
  | cons t rest ih =>
      by_cases ht : t.2 = 0
      · rw [List.filter_cons_of_neg (by simp [ht]), formalSum_cons, ih, ht, map_zero, zero_add]
      · rw [List.filter_cons_of_pos (by simp [ht]), formalSum_cons, formalSum_cons, ih]

/-- Whatever is made of a row of terms stands for their sum. -/
theorem denotes_ofTerms (row : List (Term K)) : Denotes (ofTerms row) (formalSum row) where
  formalSum_eq := (formalSum_filter_ne_zero (sumTerms row)).trans (formalSum_sumTerms row)
  ne_zero := by
    intro t ht
    simpa using (List.mem_filter.1 ht).2

/-- A polynomial is determined by what it stands for. -/
theorem Denotes.eq {p p' : Polynomial K} {q : K[X]} (h : Denotes p q) (h' : Denotes p' q) :
    p = p' := by
  -- a term of the one is the coefficient at its degree, which is no zero, so that the other has a
  -- term there
  have hsub : ∀ {r r' : Polynomial K}, Denotes r q → Denotes r' q →
      ∀ t ∈ r.terms, t ∈ r'.terms := by
    intro r r' hr hr' t ht
    have hcoeff : (formalSum r'.terms).coeff t.1.toNat = t.2 := by
      rw [hr'.formalSum_eq]
      exact hr.coeff_of_mem ht
    by_contra hnot
    have hnone : ∀ u ∈ r'.terms, u.1.toNat ≠ t.1.toNat := by
      intro u hu hdegree
      have hu2 : u.2 = t.2 := by
        rw [← hcoeff, ← hdegree]
        exact (coeff_formalSum_of_mem r'.ascending hu).symm
      exact hnot (Prod.ext (UInt32.toNat_inj.1 hdegree) hu2 ▸ hu)
    exact hr.ne_zero t ht (hcoeff.symm.trans (coeff_formalSum_eq_zero hnone))
  refine eq_of_terms ?_
  have : Std.Irrefl fun s t : Term K => s.1 < t.1 := ⟨fun t => UInt32.lt_irrefl t.1⟩
  have : Std.Antisymm fun s t : Term K => s.1 < t.1 :=
    ⟨fun s t hst hts => absurd hst (UInt32.lt_asymm hts)⟩
  exact p.ascending.eq_of_mem_iff p'.ascending fun t => ⟨hsub h h' t, hsub h' h t⟩

theorem ofTerms_congr {row row' : List (Term K)} (h : formalSum row = formalSum row') :
    ofTerms row = ofTerms row' :=
  (denotes_ofTerms row).eq (h ▸ denotes_ofTerms row')

theorem denotes_constant (c : K) : Denotes (constant c) (C c) := by
  have h := denotes_ofTerms [((0 : UInt32), c)]
  rwa [formalSum_cons, formalSum_nil, add_zero] at h

theorem denotes_indeterminate : Denotes (indeterminate : Polynomial K) X := by
  have h := denotes_ofTerms [((1 : UInt32), (1 : K))]
  rwa [formalSum_cons, formalSum_nil, add_zero] at h

theorem formalSum_multiply {p p' r : Polynomial K} (h : p.multiply p' = .ok r) :
    formalSum r.terms = formalSum p.terms * formalSum p'.terms := by
  obtain ⟨hfit, rfl⟩ := multiply_eq_ok h
  rw [(denotes_ofTerms _).formalSum_eq, termProducts, formalSum_flatMap_mul hfit]

theorem ne_zero_of_multiply {p p' r : Polynomial K} (h : p.multiply p' = .ok r) :
    ∀ t ∈ r.terms, t.2 ≠ 0 := by
  obtain ⟨_, rfl⟩ := multiply_eq_ok h
  exact (denotes_ofTerms _).ne_zero

namespace Denotes

variable {p p' : Polynomial K} {q q' : K[X]}

theorem plus (h : Denotes p q) (h' : Denotes p' q') : Denotes (p.plus p') (q + q') := by
  have hsum := denotes_ofTerms (p.terms ++ p'.terms)
  rwa [formalSum_append, h.formalSum_eq, h'.formalSum_eq] at hsum

theorem neg (h : Denotes p q) : Denotes p.neg (-q) where
  formalSum_eq := by
    rw [← h.formalSum_eq]
    exact formalSum_map_neg p.terms
  ne_zero := by
    intro t ht
    obtain ⟨s, hs, rfl⟩ := List.mem_map.1 ht
    exact neg_ne_zero.2 (h.ne_zero s hs)

theorem minus (h : Denotes p q) (h' : Denotes p' q') : Denotes (p.minus p') (q - q') := by
  rw [sub_eq_add_neg]
  exact h.plus h'.neg

/-- **Products.** What is multiplied without breaking off is the product of the ring. -/
theorem multiply (h : Denotes p q) (h' : Denotes p' q') {r : Polynomial K}
    (hr : p.multiply p' = .ok r) : Denotes r (q * q') := by
  have hproduct := formalSum_multiply hr
  rw [h.formalSum_eq, h'.formalSum_eq] at hproduct
  exact ⟨hproduct, ne_zero_of_multiply hr⟩

/-- A product breaks off exactly if the degree of the product in the ring has no room. -/
theorem sumsFit_iff (h : Denotes p q) (h' : Denotes p' q') :
    p.SumsFit p' ↔ (q * q').natDegree < UInt32.size := by
  rw [Polynomial.sumsFit_iff, h.natDegree, h'.natDegree, ← Bool.not_eq_true, ← Bool.not_eq_true,
    h.isZero_iff, h'.isZero_iff]
  by_cases hzero : q * q' = 0
  · rw [hzero, natDegree_zero]
    rcases mul_eq_zero.1 hzero with hq | hq' <;> simp [*]
  · obtain ⟨hq, hq'⟩ := mul_ne_zero_iff.1 hzero
    rw [natDegree_mul hq hq']
    exact ⟨fun hfit => hfit hq hq', fun hfit _ _ => hfit⟩

theorem exists_multiply (h : Denotes p q) (h' : Denotes p' q')
    (hfit : (q * q').natDegree < UInt32.size) :
    ∃ r, p.multiply p' = .ok r ∧ Denotes r (q * q') := by
  have hr := multiply_of_sumsFit ((h.sumsFit_iff h').2 hfit)
  exact ⟨_, hr, h.multiply h' hr⟩

/-- What two polynomials multiply to depends on their product in the ring alone. -/
theorem multiply_congr {r r' : Polynomial K} {s s' : K[X]} (h : Denotes p q) (h' : Denotes p' q')
    (k : Denotes r s) (k' : Denotes r' s') (heq : q * q' = s * s') :
    p.multiply p' = r.multiply r' := by
  by_cases hfit : (q * q').natDegree < UInt32.size
  · obtain ⟨a, ha, hdenotes⟩ := h.exists_multiply h' hfit
    obtain ⟨b, hb, hdenotes'⟩ := k.exists_multiply k' (heq ▸ hfit)
    rw [ha, hb, hdenotes.eq (heq ▸ hdenotes')]
  · have hleft := multiply_eq_error_iff.2 ⟨rfl, mt (h.sumsFit_iff h').1 hfit⟩
    have hright := multiply_eq_error_iff.2 ⟨rfl, mt (k.sumsFit_iff k').1 (heq ▸ hfit)⟩
    rw [hleft, hright]

end Denotes

end

/-! ## §4  Computations that may fail -/

section

variable {K : Type} [Semiring K] {ε : Type}

/-- What a computation that may fail is worth: it succeeds exactly where it is legal, and then with
a polynomial that stands for a given one. -/
def Yields (x : Except ε (Polynomial K)) (legal : Prop) (q : K[X]) : Prop :=
  match x with
  | .ok p => legal ∧ Denotes p q
  | .error _ => ¬ legal

namespace Yields

variable {x y : Except ε (Polynomial K)} {legal legal' legal'' : Prop} {q q' r : K[X]}

theorem ok_iff (h : Yields x legal q) : (∃ p, x = .ok p) ↔ legal := by
  cases x with
  | error e =>
      constructor
      · rintro ⟨p, hp⟩
        cases hp
      · intro hlegal
        exact absurd hlegal h
  | ok p => exact ⟨fun _ => h.1, fun _ => ⟨p, rfl⟩⟩

theorem denotes (h : Yields x legal q) {p : Polynomial K} (hp : x = .ok p) : Denotes p q := by
  subst hp
  exact h.2

theorem mapError {ε' : Type} (f : ε → ε') (h : Yields x legal q) :
    Yields (x.mapError f) legal q := by
  cases x <;> exact h

/-- An operation on one result fails only where the result does. -/
theorem map {f : Polynomial K → Polynomial K} (h : Yields x legal q)
    (hf : ∀ p, Denotes p q → Denotes (f p) r) :
    Yields (do let p ← x; return f p) legal r := by
  cases x with
  | error e => exact h
  | ok p => exact ⟨h.1, hf p h.2⟩

/-- An operation on two results fails where one of them does or where it does itself. -/
theorem bind₂ {f : Polynomial K → Polynomial K → Except ε (Polynomial K)} (hx : Yields x legal q)
    (hy : Yields y legal' q')
    (hf : ∀ p p', legal → legal' → Denotes p q → Denotes p' q' → Yields (f p p') legal'' r) :
    Yields (do let p ← x; let p' ← y; f p p') (legal ∧ legal' ∧ legal'') r := by
  cases x with
  | error e => exact fun h => hx h.1
  | ok p =>
      cases y with
      | error e => exact fun h => hy h.2.1
      | ok p' =>
          have h := hf p p' hx.1 hy.1 hx.2 hy.2
          show Yields (f p p') _ r
          cases hp : f p p' with
          | error e =>
              rw [hp] at h
              exact fun h' => h h'.2.2
          | ok s =>
              rw [hp] at h
              exact ⟨⟨hx.1, hy.1, h.1⟩, h.2⟩

end Yields

end

/-! ## §5  Products, quotients and powers -/

section

variable {K : Type} [Field K] [LinearOrder K]

/-- Whether a formal polynomial can be divided by: it is a constant other than zero. -/
def IsDivisor (q : K[X]) : Prop := ∃ c : K, c ≠ 0 ∧ q = C c

/-- Whether one formal polynomial can be raised to another under a cap: the exponent is a natural
number, and the result's degree stays within the cap unless the base is constant. -/
def IsExponentFor (cap : ℕ) (base exponent : K[X]) : Prop :=
  ∃ n : ℕ, exponent = C (n : K) ∧ (0 < base.natDegree → base.natDegree * n ≤ cap)

theorem Denotes.yields_multiply {p p' : Polynomial K} {q q' : K[X]} (h : Denotes p q)
    (h' : Denotes p' q') (hfit : (q * q').natDegree < UInt32.size) :
    Yields (p.multiply p') True (q * q') := by
  obtain ⟨r, hr, hdenotes⟩ := h.exists_multiply h' hfit
  rw [hr]
  exact ⟨trivial, hdenotes⟩

theorem Denotes.divide {p p' : Polynomial K} {q q' : K[X]} (h : Denotes p q) (h' : Denotes p' q') :
    Yields (p.divide p') (IsDivisor q') (q * C (q'.coeff 0)⁻¹) := by
  have hcoeff : p'.coefficient 0 = q'.coeff 0 := h'.coefficient 0
  unfold Polynomial.divide
  dsimp only
  rw [hcoeff]
  split_ifs with hconst hzero
  · rintro ⟨c, -, rfl⟩
    have := h'.isConstant_iff.2 (natDegree_C c)
    simp [this] at hconst
  · rintro ⟨c, hc, rfl⟩
    rw [coeff_C_zero] at hzero
    exact hc (eq_of_beq hzero)
  · have hq' : q' = C (q'.coeff 0) :=
      eq_C_of_natDegree_eq_zero (h'.isConstant_iff.1 (by simpa using hconst))
    refine ⟨⟨q'.coeff 0, fun h0 => hzero (by simp [h0]), hq'⟩, ?_⟩
    have hsum := denotes_ofTerms (p.terms.map fun t => (t.1, t.2 / q'.coeff 0))
    rwa [formalSum_map_div, h.formalSum_eq] at hsum

namespace Raising

/-- What the factors that are there and those still to come multiply to. -/
noncomputable def product (s : Raising K) : K[X] :=
  formalSum s.accumulated.terms * formalSum s.base.terms ^ s.left

theorem formalSum_of_nextAccumulated {s : Raising K} {a : Polynomial K}
    (h : s.nextAccumulated = .ok a) :
    formalSum a.terms = formalSum s.accumulated.terms * formalSum s.base.terms ^ (s.left % 2) := by
  unfold nextAccumulated at h
  rcases Nat.mod_two_eq_zero_or_one s.left with heven | hodd
  · rw [heven, if_neg (by decide)] at h
    rw [heven, pow_zero, mul_one, Except.ok.inj h]
  · rw [hodd, if_pos rfl] at h
    rw [hodd, pow_one, formalSum_multiply h]

theorem formalSum_of_nextBase {s : Raising K} {b : Polynomial K} (h : s.nextBase = .ok b) :
    formalSum b.terms ^ (s.left / 2) = formalSum s.base.terms ^ (2 * (s.left / 2)) := by
  unfold nextBase at h
  by_cases hlast : s.left / 2 = 0
  · rw [hlast, mul_zero, pow_zero, pow_zero]
  · rw [if_neg hlast] at h
    rw [formalSum_multiply h, ← pow_two, ← pow_mul]

/-- A round changes neither. -/
theorem product_next {s t : Raising K} (h : s.next = .ok t) : t.product = s.product := by
  obtain ⟨haccumulated, hbase, hleft⟩ := exists_of_next h
  rw [product, product, hleft, formalSum_of_nextAccumulated haccumulated,
    formalSum_of_nextBase hbase, mul_assoc, ← pow_add, Nat.mod_add_div]

theorem product_after {s t : Raising K} {k : ℕ} (h : s.after k = .ok t) :
    t.product = s.product := by
  induction k generalizing t with
  | zero => rw [Except.ok.inj h]
  | succ k ih =>
      obtain ⟨u, hu, h⟩ := exists_of_bind_eq_ok h
      rw [product_next h, ih hu]

theorem ne_zero_next {s t : Raising K} (hs : ∀ u ∈ s.accumulated.terms, u.2 ≠ 0)
    (h : s.next = .ok t) : ∀ u ∈ t.accumulated.terms, u.2 ≠ 0 := by
  have haccumulated := (exists_of_next h).1
  unfold nextAccumulated at haccumulated
  split at haccumulated
  · exact ne_zero_of_multiply haccumulated
  · rwa [← Except.ok.inj haccumulated]

theorem ne_zero_after {s t : Raising K} (hs : ∀ u ∈ s.accumulated.terms, u.2 ≠ 0) {k : ℕ}
    (h : s.after k = .ok t) : ∀ u ∈ t.accumulated.terms, u.2 ≠ 0 := by
  induction k generalizing t with
  | zero => rwa [← Except.ok.inj h]
  | succ k ih =>
      obtain ⟨u, hu, h⟩ := exists_of_bind_eq_ok h
      exact ne_zero_next (ih hu) h

end Raising

/-- **Square and multiply.** What is raised is the product of all factors. -/
theorem Denotes.raise {p p' r : Polynomial K} {q : K[X]} (h : Denotes p q) {n : ℕ}
    (hfit : p.degree.toNat + p'.degree.toNat * n < UInt32.size)
    (hr : Scalar.raise multiplyResults (.ok p) (.ok p') n = .ok r) :
    Denotes r (q * formalSum p'.terms ^ n) := by
  have hwithin : Raising.Within (p.degree.toNat + p'.degree.toNat * n) p' ⟨p, p', n⟩ :=
    ⟨le_rfl, .inl rfl⟩
  obtain ⟨t, ht, _, hleft, hresult⟩ := hwithin.exists_last hfit
  obtain rfl : t.accumulated = r := Except.ok.inj (hresult.symm.trans hr)
  have hproduct := Raising.product_after ht
  rw [Raising.product, hleft, pow_zero, mul_one] at hproduct
  refine ⟨?_, Raising.ne_zero_after h.ne_zero ht⟩
  rw [hproduct, Raising.product, h.formalSum_eq]

theorem Denotes.exists_raise {p : Polynomial K} {q : K[X]} (h : Denotes p q) {n : ℕ}
    (hfit : q.natDegree * n < UInt32.size) :
    ∃ r, Scalar.raise multiplyResults (.ok (constant 1)) (.ok p) n = .ok r ∧
      Denotes r (q ^ n) := by
  have hroom : (constant (1 : K)).degree.toNat + p.degree.toNat * n < UInt32.size := by
    rwa [toNat_degree_constant, zero_add, h.natDegree]
  obtain ⟨r, hr, _⟩ := exists_raise_of_lt hroom
  have hraise := (denotes_constant 1).raise hroom hr
  rw [C_1, one_mul, h.formalSum_eq] at hraise
  exact ⟨r, hr, hraise⟩

variable [FloorRing K]

/-- A whole number that is not negative is the natural number that it is counted as. -/
theorem natCast_toNat_floor {x : K} (hwhole : Coefficient.isWhole x = true) (hneg : ¬ x < 0) :
    ((⌊x⌋.toNat : ℕ) : K) = x := by
  have hfloor : (⌊x⌋ : K) = x := of_decide_eq_true hwhole
  have hnonneg : 0 ≤ ⌊x⌋ := Int.floor_nonneg.2 (not_lt.1 hneg)
  calc ((⌊x⌋.toNat : ℕ) : K) = ((⌊x⌋.toNat : ℤ) : K) := (Int.cast_natCast _).symm
    _ = (⌊x⌋ : K) := by rw [Int.toNat_of_nonneg hnonneg]
    _ = x := hfloor

variable [IsStrictOrderedRing K]

theorem pow_natCast (x : K) (n : ℕ) : Coefficient.pow x (n : K) = x ^ n := by
  show (if (⌊(n : K)⌋ : K) = n then x ^ ⌊(n : K)⌋ else 0) = x ^ n
  rw [Int.floor_natCast, if_pos (Int.cast_natCast n), zpow_natCast]

theorem Denotes.power {p p' : Polynomial K} {q q' : K[X]} (h : Denotes p q) (h' : Denotes p' q')
    (cap : UInt32) :
    Yields (p.power p' cap) (IsExponentFor cap.toNat q q') (q ^ ⌊q'.coeff 0⌋.toNat) := by
  have hcoeff : p'.coefficient 0 = q'.coeff 0 := h'.coefficient 0
  unfold Polynomial.power
  dsimp only
  rw [hcoeff]
  split_ifs with hconst hwhole hneg hbase hcap
  · rintro ⟨n, rfl, -⟩
    have := h'.isConstant_iff.2 (natDegree_C (n : K))
    simp [this] at hconst
  · rintro ⟨n, rfl, -⟩
    have : Coefficient.isWhole (n : K) = true :=
      decide_eq_true (by rw [Int.floor_natCast, Int.cast_natCast])
    rw [coeff_C_zero, this] at hwhole
    exact absurd hwhole (by decide)
  · rintro ⟨n, rfl, -⟩
    rw [coeff_C_zero] at hneg
    exact absurd hneg (not_lt_of_ge (Nat.cast_nonneg n))
  -- past the guards on the exponent it is a count, which is called `n` from here on
  all_goals
    have hq' : q' = C (q'.coeff 0) :=
      eq_C_of_natDegree_eq_zero (h'.isConstant_iff.1 (by simpa using hconst))
    have hcount := natCast_toNat_floor (by simpa using hwhole) hneg
    generalize ⌊q'.coeff 0⌋.toNat = n at hcount ⊢
    rw [← hcount] at hq' ⊢
  · have hq : q.natDegree = 0 := h.isConstant_iff.1 hbase
    refine ⟨⟨n, hq', fun hpos => absurd hq (Nat.ne_of_gt hpos)⟩, ?_⟩
    rw [pow_natCast, h.eq_C hbase, ← C_pow]
    exact denotes_constant _
  · rintro ⟨m, hm, hle⟩
    have hmn : n = m := Nat.cast_injective (C_injective (hq'.symm.trans hm))
    have hpos : 0 < q.natDegree := Nat.pos_of_ne_zero fun h0 => hbase (h.isConstant_iff.2 h0)
    have hlt : (cap.toNat : K) < (p.degree.toNat : K) * (n : K) := by rwa [hcount]
    rw [h.natDegree, ← Nat.cast_mul, Nat.cast_lt, hmn] at hlt
    exact absurd (hle hpos) (not_le_of_gt hlt)
  · have hpos : 0 < q.natDegree := Nat.pos_of_ne_zero fun h0 => hbase (h.isConstant_iff.2 h0)
    have hle : ¬ (cap.toNat : K) < (p.degree.toNat : K) * (n : K) := by rwa [hcount]
    rw [h.natDegree, ← Nat.cast_mul, Nat.cast_lt, not_lt] at hle
    have hfit : q.natDegree * n < UInt32.size := hle.trans_lt cap.toNat_lt
    have hloop : Coefficient.toCount (n : K) = n :=
      LawfulWhole.toCount_ofNat ((Nat.le_mul_of_pos_left n hpos).trans_lt hfit)
    obtain ⟨r, hr, hraise⟩ := h.exists_raise hfit
    rw [hloop, hr]
    exact ⟨⟨n, hq', fun _ => hle⟩, hraise⟩

/-! ## §6  Values -/

/-- A polynomial has the values of the sum of its terms. -/
theorem eval_eq_eval_formalSum (p : Polynomial K) (x : K) :
    p.eval x = (formalSum p.terms).eval x := by
  have hfold : ∀ (terms : List (Term K)) (sum : K),
      terms.foldl (fun sum t => sum + t.2 * Coefficient.pow x ((t.1.toNat : ℕ) : K)) sum =
        sum + (formalSum terms).eval x := by
    intro terms
    induction terms with
    | nil => simp
    | cons t rest ih =>
        intro sum
        rw [List.foldl_cons, ih, formalSum_cons, eval_add, eval_monomial, pow_natCast, add_assoc]
  calc p.eval x = -0 + (formalSum p.terms).eval x := hfold p.terms (-0)
    _ = (formalSum p.terms).eval x := by rw [neg_zero, zero_add]

theorem Denotes.eval {p : Polynomial K} {q : K[X]} (h : Denotes p q) (x : K) :
    p.eval x = q.eval x := by
  rw [eval_eq_eval_formalSum, h.formalSum_eq]

end

end InkAlgebra.Polynomial

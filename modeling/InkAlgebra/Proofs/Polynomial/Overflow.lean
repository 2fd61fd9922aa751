import Mathlib
import InkAlgebra.Proofs.Expression.Adjacency
import InkAlgebra.Proofs.Number.Laws
import InkAlgebra.Proofs.Polynomial.Degrees
import InkAlgebra.Proofs.Polynomial.Substitution

/-!
# Where an evaluation breaks off

A product adds degrees as words, and a sum of `2 ^ 32` or more breaks the evaluation off. Up to
there every degree is the sum that it is meant to be.

Powers never break it off: all that is multiplied for a power has at most the degree of the power,
which the cap bounds. Products do, since nothing bounds theirs. An expression in which the variable
is written `k` times has no degree beyond `k` times the cap.

§1 are the steps of the machine and the step at which it breaks off, §2 powers, §3 how far degrees
grow, §4 trees and their products.
-/

namespace InkAlgebra

/-! ## §1  Steps -/

/-- What the machine has on its stack, with the row that is still to be run, after some steps. -/
inductive Meaning.Reaches {ε β : Type} (m : Meaning ε β) (stack : List β) (row : List Token) :
    List β → List Token → Prop
  | start : Reaches m stack row stack row
  | unary {o : Op} {a : β} {below : List β} {rest : List Token} (ho : o.isUnary = true)
      (h : Reaches m stack row (a :: below) (.op o :: rest)) :
      Reaches m stack row (m.unary o a :: below) rest
  | binary {o : Op} {a b v : β} {below : List β} {rest : List Token} (ho : o.isUnary = false)
      (h : Reaches m stack row (b :: a :: below) (.op o :: rest)) (hv : m.binary o a b = .ok v) :
      Reaches m stack row (v :: below) rest
  | operand {t : Token} {v : β} {below : List β} {rest : List Token} (ht : ∀ o, t ≠ .op o)
      (h : Reaches m stack row below (t :: rest)) (hv : m.operand t = .ok v) :
      Reaches m stack row (v :: below) rest

namespace Meaning

variable {ε β : Type} {m : Meaning ε β} {stack stack' : List β} {row row' : List Token}

/-- What is reached has the run that was started. -/
theorem Reaches.runFrom_eq (h : m.Reaches stack row stack' row') :
    m.runFrom stack row = m.runFrom stack' row' := by
  induction h with
  | start => rfl
  | unary ho _ ih =>
      rw [ih]
      simp only [runFrom, ho, if_true]
  | binary ho _ hv ih =>
      rw [ih]
      simp only [runFrom, ho, hv]
      rfl
  | operand ht _ hv ih =>
      rw [ih, runFrom_operand ht, hv]
      rfl

/-- **Where a run fails.** If neither an operand nor the shape of the row is to blame, then an
operation is. -/
theorem exists_reaches_of_runFrom_eq_error {e : ε} (hmalformed : m.malformed ≠ e)
    (hoperand : ∀ t, m.operand t ≠ .error e) (h : m.runFrom stack row = .error e) :
    ∃ o a b below rest, m.Reaches stack row (b :: a :: below) (.op o :: rest) ∧
      o.isUnary = false ∧ m.binary o a b = .error e := by
  -- the steps that have been made are kept apart from those to come
  suffices ∀ {stack' : List β} {row' : List Token}, m.Reaches stack row stack' row' →
      m.runFrom stack' row' = .error e → ∃ o a b below rest,
        m.Reaches stack row (b :: a :: below) (.op o :: rest) ∧ o.isUnary = false ∧
          m.binary o a b = .error e from this .start h
  clear h
  intro stack' row' hreached h
  induction row' generalizing stack' with
  | nil =>
      rcases stack' with _ | ⟨v, _ | ⟨w, below⟩⟩
      · exact absurd (Except.error.inj h) hmalformed
      · cases h
      · exact absurd (Except.error.inj h) hmalformed
  | cons t rest ih =>
      by_cases ht : ∃ o, t = .op o
      · obtain ⟨o, rfl⟩ := ht
        cases ho : o.isUnary with
        | true =>
            rcases stack' with _ | ⟨a, below⟩
            · simp only [runFrom, ho, if_true] at h
              exact absurd (Except.error.inj h) hmalformed
            · simp only [runFrom, ho, if_true] at h
              exact ih (.unary ho hreached) h
        | false =>
            rcases stack' with _ | ⟨b, _ | ⟨a, below⟩⟩
            · simp only [runFrom, ho, Bool.false_eq_true, if_false] at h
              exact absurd (Except.error.inj h) hmalformed
            · simp only [runFrom, ho, Bool.false_eq_true, if_false] at h
              exact absurd (Except.error.inj h) hmalformed
            · simp only [runFrom, ho, Bool.false_eq_true, if_false] at h
              cases hv : m.binary o a b with
              | error e' =>
                  rw [hv] at h
                  obtain rfl := Except.error.inj h
                  exact ⟨o, a, b, below, rest, hreached, ho, hv⟩
              | ok v =>
                  rw [hv] at h
                  exact ih (.binary ho hreached hv) h
      · have hnot : ∀ o, t ≠ .op o := fun o heq => ht ⟨o, heq⟩
        rw [runFrom_operand hnot] at h
        cases hv : m.operand t with
        | error e' =>
            rw [hv] at h
            obtain rfl := Except.error.inj h
            exact absurd hv (hoperand t)
        | ok v =>
            rw [hv] at h
            exact ih (.operand hnot hreached hv) h

end Meaning

namespace Polynomial

/-! ## §2  Powers -/

section

variable {α : Type} [Coefficient α] {p exponent r : Polynomial α} {cap : UInt32}

/-- How a power may end: an exponent or a degree is refused, a constant is raised as a number, or
square and multiply is started with a degree that has passed the cap. -/
theorem power_cases (p exponent : Polynomial α) (cap : UInt32) :
    (∃ e, p.power exponent cap = .error (.failed e)) ∨
      (p.isConstant = true ∧ ∃ c, p.power exponent cap = .ok (constant c)) ∨
      p.isConstant = false ∧
        ¬ (Scalar.ofNat cap.toNat : α) <
          Scalar.ofNat p.degree.toNat * exponent.coefficient 0 ∧
        p.power exponent cap = Scalar.raise multiplyResults (.ok (constant 1)) (.ok p)
          (Coefficient.toCount (exponent.coefficient 0)) := by
  unfold power
  dsimp only
  split_ifs with _ _ _ hconstant hover
  · exact .inl ⟨_, rfl⟩
  · exact .inl ⟨_, rfl⟩
  · exact .inl ⟨_, rfl⟩
  · exact .inr (.inl ⟨hconstant, _, rfl⟩)
  · exact .inl ⟨_, rfl⟩
  · exact .inr (.inr ⟨Bool.eq_false_iff.2 hconstant, hover, rfl⟩)

variable [LawfulCap α]

/-- All factors of a power together have a degree within the cap, so that there is room for each
product on the way. -/
theorem exists_raise_of_not_over (hover : ¬ (Scalar.ofNat cap.toNat : α) <
    Scalar.ofNat p.degree.toNat * exponent.coefficient 0) :
    ∃ r, Scalar.raise multiplyResults (.ok (constant 1)) (.ok p)
        (Coefficient.toCount (exponent.coefficient 0)) = .ok r ∧ r.degree.toNat ≤ cap.toNat := by
  have hcap := LawfulCap.mul_toCount_le cap.toNat_lt p.degree.toNat_lt hover
  have hfactors : (constant (1 : α)).degree.toNat +
      p.degree.toNat * Coefficient.toCount (exponent.coefficient 0) ≤ cap.toNat := by
    rwa [toNat_degree_constant, zero_add]
  obtain ⟨r, hr, hdegree⟩ := exists_raise_of_lt (hfactors.trans_lt cap.toNat_lt)
  exact ⟨r, hr, hdegree.trans hfactors⟩

/-- **Powers never break off.** -/
theorem power_ne_overflow (p exponent : Polynomial α) (cap : UInt32) :
    p.power exponent cap ≠ .error .overflow := by
  rcases power_cases p exponent cap with ⟨e, h⟩ | ⟨_, c, h⟩ | ⟨_, hover, h⟩
  · rw [h]
    exact nofun
  · rw [h]
    exact nofun
  · obtain ⟨r, hr, _⟩ := exists_raise_of_not_over hover
    rw [h, hr]
    exact nofun

/-- A power has a degree within the cap, and none if its base has none. -/
theorem toNat_degree_power_le (h : p.power exponent cap = .ok r) :
    r.degree.toNat ≤ if p.isConstant then 0 else cap.toNat := by
  rcases power_cases p exponent cap with ⟨e, hp⟩ | ⟨hconstant, c, hp⟩ | ⟨hconstant, hover, hp⟩
  · rw [h] at hp
    cases hp
  · rw [h] at hp
    rw [Except.ok.inj hp, if_pos hconstant]
    exact (toNat_degree_constant c).le
  · obtain ⟨r', hr', hdegree⟩ := exists_raise_of_not_over hover
    rw [h, hr'] at hp
    rw [Except.ok.inj hp, if_neg (Bool.eq_false_iff.1 hconstant)]
    exact hdegree

end

/-! ## §3  How far degrees grow -/

section

variable {α : Type} [Coefficient α] {p q r : Polynomial α} {cap : UInt32} {bound j k : ℕ}

theorem operand_ne_overflow (cap : UInt32) (t : Token) :
    (meaning (α := α) cap).operand t ≠ .error .overflow := by
  unfold meaning
  dsimp only
  split <;> exact nofun

theorem toNat_degree_operand_le {t : Token} (h : (meaning cap).operand t = .ok p) :
    p.degree.toNat ≤ [t].count (.letter 'x') := by
  have hofOperand : ofOperand? t = some p := by
    unfold meaning at h
    dsimp only at h
    split at h
    · rename_i found hfound
      rw [hfound, Except.ok.inj h]
    · cases h
  unfold ofOperand? at hofOperand
  split at hofOperand
  · obtain rfl := Option.some.inj hofOperand
    rw [List.count_singleton_self]
    apply toNat_degree_ofTerms_le
    intro t ht
    rw [List.mem_singleton.1 ht]
    exact le_rfl
  · obtain ⟨c, _, rfl⟩ := Option.map_eq_some_iff.1 hofOperand
    rw [toNat_degree_constant]
    exact Nat.zero_le _
  · cases hofOperand

theorem toNat_degree_unary_le (cap : UInt32) (o : Op) (p : Polynomial α) :
    ((meaning cap).unary o p).degree.toNat ≤ p.degree.toNat := by
  show (if o = .neg then p.neg else p).degree.toNat ≤ _
  split
  · apply Nat.le_of_lt_succ
    apply degree_lt (Nat.succ_pos _)
    intro t ht
    obtain ⟨s, hs, rfl⟩ := List.mem_map.1 ht
    show s.1.toNat < _
    exact Nat.lt_succ_of_le (le_degree hs)
  · exact le_rfl

theorem toNat_degree_plus_le (p q : Polynomial α) :
    (p.plus q).degree.toNat ≤ max p.degree.toNat q.degree.toNat := by
  apply toNat_degree_ofTerms_le
  intro t ht
  rcases List.mem_append.1 ht with ht | ht
  · exact (le_degree ht).trans (le_max_left _ _)
  · exact (le_degree ht).trans (le_max_right _ _)

theorem toNat_degree_divide_le (h : p.divide q = .ok r) : r.degree.toNat ≤ p.degree.toNat := by
  unfold divide at h
  dsimp only at h
  split at h
  · cases h
  split at h
  · cases h
  obtain rfl := Except.ok.inj h
  apply toNat_degree_ofTerms_le
  intro t ht
  obtain ⟨s, hs, rfl⟩ := List.mem_map.1 ht
  show s.1.toNat ≤ _
  exact le_degree hs

variable [LawfulCap α]

/-- **Growth.** What is made of two polynomials has a degree of at most as many times the bound as
both together. -/
theorem toNat_degree_binary_le (hcap : cap.toNat ≤ bound) (hp : p.degree.toNat ≤ j * bound)
    (hq : q.degree.toNat ≤ k * bound) {o : Op} (h : (meaning cap).binary o p q = .ok r) :
    r.degree.toNat ≤ (j + k) * bound := by
  rw [Nat.add_mul]
  have hpower : ∀ {r : Polynomial α}, p.power q cap = .ok r → r.degree.toNat ≤ j * bound := by
    intro r h
    refine (toNat_degree_power_le h).trans ?_
    cases hconstant : p.isConstant with
    | true => exact Nat.zero_le _
    | false =>
        -- a base with a degree has a part in the bound
        have hj : 0 < j := by
          apply Nat.pos_of_ne_zero
          rintro rfl
          have hdegree := toNat_degree_pos hconstant
          omega
        exact hcap.trans (Nat.le_mul_of_pos_left bound hj)
  cases o with
  | add =>
      obtain rfl := Except.ok.inj h
      have hsum := toNat_degree_plus_le p q
      omega
  | sub =>
      obtain rfl := Except.ok.inj h
      have hsum := toNat_degree_plus_le p q.neg
      have hneg : q.neg.degree.toNat ≤ q.degree.toNat := toNat_degree_unary_le cap .neg q
      show (p.plus q.neg).degree.toNat ≤ _
      omega
  | mul => exact (toNat_degree_multiply_le h).trans (Nat.add_le_add hp hq)
  | div =>
      have hquotient := toNat_degree_divide_le (eq_ok_of_mapError h)
      omega
  | pow | neg | pos => exact (hpower h).trans (Nat.le_add_right _ _)

/-- An operation that breaks off is a product whose degrees do not fit. -/
theorem binary_eq_overflow_iff {o : Op} (ho : o.isUnary = false) :
    (meaning cap).binary o p q = .error .overflow ↔ o = .mul ∧ ¬ p.SumsFit q := by
  cases o with
  | add | sub => exact ⟨nofun, fun h => nomatch h.1⟩
  | mul => exact multiply_eq_error_iff.trans (and_congr_left' ⟨fun _ => rfl, fun _ => rfl⟩)
  | div =>
      constructor
      · intro h
        change (p.divide q).mapError _ = _ at h
        cases hquotient : p.divide q with
        | ok r =>
            rw [hquotient] at h
            cases h
        | error e =>
            rw [hquotient] at h
            cases h
      · exact fun h => nomatch h.1
  | pow => exact ⟨fun h => absurd h (power_ne_overflow p q cap), fun h => nomatch h.1⟩
  | neg | pos => cases ho

/-- **Where it breaks off.** A text breaks off exactly if its evaluation comes to a product of two
polynomials that have terms whose degrees add up to `2 ^ 32` or more. -/
theorem ofExpression_eq_overflow_iff {text : List Char} :
    (ofExpression cap text : Except _ (Polynomial α)) = .error .overflow ↔
      ∃ post, infixToPostfix text = .ok post ∧
        ∃ (p q : Polynomial α) (below : List (Polynomial α)) (rest : List Token),
          (meaning cap).Reaches [] post (q :: p :: below) (.op .mul :: rest) ∧
            ¬ p.SumsFit q := by
  unfold ofExpression
  constructor
  · intro h
    cases hparse : infixToPostfix text with
    | error e =>
        rw [hparse] at h
        cases h
    | ok post =>
        rw [hparse] at h
        have hrun : (meaning cap).runFrom [] post = .error .overflow := h
        have hmalformed : (meaning (α := α) cap).malformed ≠ .overflow := nofun
        obtain ⟨o, p, q, below, rest, hreached, ho, hoverflow⟩ :=
          Meaning.exists_reaches_of_runFrom_eq_error hmalformed (operand_ne_overflow cap) hrun
        obtain ⟨rfl, hfit⟩ := (binary_eq_overflow_iff ho).1 hoverflow
        exact ⟨post, rfl, p, q, below, rest, hreached, hfit⟩
  · rintro ⟨post, hparse, p, q, below, rest, hreached, hfit⟩
    rw [hparse]
    have hoverflow : p.multiply q = .error .overflow := multiply_eq_error_iff.2 ⟨rfl, hfit⟩
    show (meaning cap).runFrom [] post = _
    rw [hreached.runFrom_eq]
    show (p.multiply q >>= fun r => (meaning cap).runFrom (r :: below) rest) = _
    rw [hoverflow]
    rfl

/-- Whether a stack keeps within multiples of a bound, of which there is room for all together with
what the row still brings. -/
def KeepsWithin (bound : ℕ) (stack : List (Polynomial α)) (row : List Token) : Prop :=
  ∃ counts : List ℕ, List.Forall₂ (fun p k => p.degree.toNat ≤ k * bound) stack counts ∧
    (counts.sum + row.count (.letter 'x')) * bound < UInt32.size

/-- Steps keep within a bound that the cap keeps within. -/
theorem KeepsWithin.of_reaches (hcap : cap.toNat ≤ bound) (hpos : 1 ≤ bound)
    {stack stack' : List (Polynomial α)} {row row' : List Token} (h : KeepsWithin bound stack row)
    (hreached : (meaning cap).Reaches stack row stack' row') : KeepsWithin bound stack' row' := by
  induction hreached with
  | start => exact h
  | @unary o p below rest _ _ ih =>
      obtain ⟨counts, hstack, hall⟩ := ih
      rw [List.count_cons_of_ne (by simp)] at hall
      cases hstack with
      | @cons p k below counts hp hbelow =>
          exact ⟨k :: counts, .cons ((toNat_degree_unary_le cap o p).trans hp) hbelow, hall⟩
  | @binary o p q r below rest _ _ hr ih =>
      obtain ⟨counts, hstack, hall⟩ := ih
      rw [List.count_cons_of_ne (by simp)] at hall
      cases hstack with
      | @cons q k below counts hq hbelow =>
          cases hbelow with
          | @cons p j below counts hp hbelow =>
              refine ⟨(j + k) :: counts, .cons (toNat_degree_binary_le hcap hp hq hr) hbelow, ?_⟩
              rw [List.sum_cons, List.sum_cons, Nat.add_left_comm, ← Nat.add_assoc] at hall
              exact hall
  | @operand t p below rest _ _ hp ih =>
      obtain ⟨counts, hstack, hall⟩ := ih
      have hcount : (t :: rest).count (.letter 'x') =
          [t].count (.letter 'x') + rest.count (.letter 'x') := by
        rw [← List.count_append]
        rfl
      rw [hcount, ← Nat.add_assoc, Nat.add_comm counts.sum] at hall
      refine ⟨[t].count (.letter 'x') :: counts, .cons ?_ hstack, ?_⟩
      · exact (toNat_degree_operand_le hp).trans (Nat.le_mul_of_pos_right _ hpos)
      · rw [List.sum_cons]
        exact hall

omit [Coefficient α] [LawfulCap α] in
/-- Two factors on top of such a stack have room. -/
theorem KeepsWithin.sumsFit {below : List (Polynomial α)} {rest : List Token}
    (h : KeepsWithin bound (q :: p :: below) rest) : p.SumsFit q := by
  obtain ⟨counts, hstack, hall⟩ := h
  cases hstack with
  | @cons q k below counts hq hbelow =>
      cases hbelow with
      | @cons p j below counts hp hbelow =>
          rw [List.sum_cons, List.sum_cons] at hall
          have hboth : (j + k) * bound < UInt32.size :=
            (Nat.mul_le_mul_right bound (by omega)).trans_lt hall
          rw [Nat.add_mul] at hboth
          exact sumsFit_iff.2 fun _ _ => (Nat.add_le_add hp hq).trans_lt hboth

omit [Coefficient α] [LawfulCap α] in
theorem count_letter_le (row : List Token) :
    row.count (.letter 'x') ≤ (row.flatMap Token.source).count 'x' := by
  induction row with
  | nil => exact le_rfl
  | cons t rest ih =>
      rw [List.flatMap_cons, List.count_append]
      by_cases ht : t = .letter 'x'
      · have hone : (Token.letter 'x').source.count 'x' = 1 := rfl
        rw [ht, List.count_cons_self, hone]
        omega
      · rw [List.count_cons_of_ne ht]
        omega

omit [Coefficient α] [LawfulCap α] in
theorem count_letter_postfix_le {text : List Char} {post : List Token}
    (h : infixToPostfix text = .ok post) : post.count (.letter 'x') ≤ text.count 'x' := by
  have hperm : post.Perm ((tokenize text).filter Token.isPlaced) := (toPostfixFrom_keeps h).1
  rw [hperm.count_eq]
  refine (List.filter_sublist.count_le _).trans ?_
  conv_rhs => rw [← flatMap_source_tokenizeFrom true text]
  exact count_letter_le _

/-- **Few variables.** As long as the cap leaves room for each place where the variable is written,
nothing breaks off. -/
theorem ofExpression_ne_overflow_of_count {text : List Char}
    (h : text.count 'x' * max cap.toNat 1 < UInt32.size) :
    (ofExpression cap text : Except _ (Polynomial α)) ≠ .error .overflow := by
  intro hoverflow
  obtain ⟨post, hparse, p, q, below, rest, hreached, hfit⟩ :=
    ofExpression_eq_overflow_iff.1 hoverflow
  have hstart : KeepsWithin (max cap.toNat 1) ([] : List (Polynomial α)) post := by
    refine ⟨[], .nil, ?_⟩
    rw [List.sum_nil, zero_add]
    exact (Nat.mul_le_mul_right _ (count_letter_postfix_le hparse)).trans_lt h
  exact hfit (hstart.of_reaches (le_max_left _ _) (le_max_right _ _) hreached).sumsFit

end

/-! ## §4  Trees -/

section

variable {α : Type} [Coefficient α] {cap : UInt32}

variable (α cap) in
/-- Whether each product of a tree has room for its degrees. Factors without a value are never
multiplied. -/
def ProductsFit : Expr → Prop
  | .binary o a b => ProductsFit a ∧ ProductsFit b ∧
    (o = .mul → ∀ p q : Polynomial α, (meaning cap).value a = .ok p →
      (meaning cap).value b = .ok q → p.SumsFit q)
  | .signed _ a => ProductsFit a
  | _ => True

theorem ProductsFit.of_mem_parts {e : Expr} (h : ProductsFit α cap e) :
    ∀ d ∈ e.parts, ProductsFit α cap d :=
  Expr.of_mem_parts id (fun hbinary => ⟨hbinary.1, hbinary.2.1⟩) h

theorem value_binary {o : Operation} {a b : Expr} {p q : Polynomial α}
    (ha : (meaning cap).value a = .ok p) (hb : (meaning cap).value b = .ok q) :
    (meaning cap).value (.binary o a b) = (meaning cap).binary o.op p q := by
  rw [Meaning.value, ha, hb]
  rfl

/-- Where no part of a tree breaks off, its products have room. -/
theorem productsFit_of_value_ne_overflow {e : Expr}
    (h : ∀ d ∈ e.parts, (meaning (α := α) cap).value d ≠ .error .overflow) :
    ProductsFit α cap e := by
  induction e with
  | number text => trivial
  | letter c => trivial
  | signed s a ih => exact ih fun d hd => h d (List.mem_cons_of_mem _ hd)
  | binary o a b ihA ihB =>
      refine ⟨ihA fun d hd => h d (List.mem_cons_of_mem _ (List.mem_append_left _ hd)),
        ihB fun d hd => h d (List.mem_cons_of_mem _ (List.mem_append_right _ hd)), ?_⟩
      rintro rfl p q ha hb
      by_contra hfit
      apply h _ (Expr.mem_parts_self _)
      rw [value_binary ha hb]
      exact multiply_eq_error_iff.2 ⟨rfl, hfit⟩

variable [LawfulCap α]

theorem value_ne_overflow {e : Expr} (h : ProductsFit α cap e) :
    (meaning (α := α) cap).value e ≠ .error .overflow := by
  induction e with
  | number text => exact operand_ne_overflow cap _
  | letter c => exact operand_ne_overflow cap _
  | signed s a ih =>
      intro hoverflow
      rw [Meaning.value] at hoverflow
      cases ha : (meaning (α := α) cap).value a with
      | error e =>
          rw [ha] at hoverflow
          exact ih h (ha.trans hoverflow)
      | ok p =>
          rw [ha] at hoverflow
          cases hoverflow
  | binary o a b ihA ihB =>
      intro hoverflow
      cases ha : (meaning (α := α) cap).value a with
      | error e =>
          rw [Meaning.value, ha] at hoverflow
          exact ihA h.1 (ha.trans hoverflow)
      | ok p =>
          cases hb : (meaning (α := α) cap).value b with
          | error e =>
              rw [Meaning.value, ha, hb] at hoverflow
              exact ihB h.2.1 (hb.trans hoverflow)
          | ok q =>
              rw [value_binary ha hb] at hoverflow
              obtain ⟨hmul, hfit⟩ := (binary_eq_overflow_iff (Operation.isUnary_op o)).1 hoverflow
              have hproduct : o = .mul := by
                cases o <;> first | rfl | cases hmul
              exact hfit (h.2.2 hproduct p q ha hb)

/-- **Degrees in range.** A product breaks off exactly at two degrees that add up to `2 ^ 32` or
more, and what does not break off has the degrees that it is meant to have. Powers never break off.
The evaluation of a text, whatever it is, breaks off exactly at a product that does. It comes to
none as long as the cap leaves room for each place where the variable is written; beyond that it
comes to none in a tree and its parts, however they are written, if and only if the degrees that
each product adds up have no more than 32 bits. -/
theorem evaluation_staysInRange (cap : UInt32) :
    (∀ p q : Polynomial α,
      (p.multiply q = .error .overflow ↔
        ∃ s ∈ p.terms, ∃ t ∈ q.terms, UInt32.size ≤ s.1.toNat + t.1.toNat) ∧
      ∀ r, p.multiply q = .ok r →
        ∀ u ∈ r.terms, ∃ s ∈ p.terms, ∃ t ∈ q.terms, u.1.toNat = s.1.toNat + t.1.toNat) ∧
    (∀ p exponent : Polynomial α, p.power exponent cap ≠ .error .overflow) ∧
    (∀ text, (ofExpression cap text : Except _ (Polynomial α)) = .error .overflow ↔
      ∃ post, infixToPostfix text = .ok post ∧
        ∃ (p q : Polynomial α) (below : List (Polynomial α)) (rest : List Token),
          (meaning cap).Reaches [] post (q :: p :: below) (.op .mul :: rest) ∧
            p.multiply q = .error .overflow) ∧
    (∀ text : List Char, text.count 'x' * max cap.toNat 1 < UInt32.size →
      (ofExpression cap text : Except _ (Polynomial α)) ≠ .error .overflow) ∧
    ∀ e : Expr, e.OverX →
      ((∀ d ∈ e.parts, ∀ text, Writes text d →
          (ofExpression cap text : Except _ (Polynomial α)) ≠ .error .overflow) ↔
        ProductsFit α cap e) := by
  have hoverflow : ∀ p q : Polynomial α, p.multiply q = .error .overflow ↔ ¬ p.SumsFit q := by
    intro p q
    rw [multiply_eq_error_iff]
    exact ⟨And.right, And.intro rfl⟩
  refine ⟨fun p q => ⟨?_, fun r h u => degree_of_mem_multiply h⟩,
    fun p exponent => power_ne_overflow p exponent cap, ?_,
    fun text => ofExpression_ne_overflow_of_count, ?_⟩
  · rw [hoverflow]
    simp only [SumsFit, not_forall, not_lt, exists_prop]
  · intro text
    simp only [hoverflow]
    exact ofExpression_eq_overflow_iff
  · intro e hx
    constructor
    · intro h
      apply productsFit_of_value_ne_overflow
      intro d hd
      obtain ⟨text, htext⟩ := exists_writes (hx.of_mem_parts d hd)
      rw [← ofExpression_of_writes htext]
      exact h d hd text htext
    · intro h d hd text htext
      rw [ofExpression_of_writes htext]
      exact value_ne_overflow (h.of_mem_parts d hd)

end

/-- Two powers of the highest degree that there is room for, multiplied. -/
theorem belowHalfRange_staysInRange :
    "x^2147483647*x^2147483647".toList.count 'x' * max (2147483647 : UInt32).toNat 1 <
        UInt32.size ∧
      (ofExpression 2147483647 "x^2147483647*x^2147483647".toList :
        Except _ (Polynomial Float)) ≠ .error .overflow := by
  have hroom : "x^2147483647*x^2147483647".toList.count 'x' * max (2147483647 : UInt32).toNat 1 <
      UInt32.size := by
    decide +kernel
  exact ⟨hroom, (evaluation_staysInRange 2147483647).2.2.2.1 _ hroom⟩

/-- Two powers within the cap, each with half of the degrees that there are: there is no room for
the degree of their product. -/
theorem halfRange_overflows :
    (ofExpression 2147483648 "x^2147483648".toList : Except _ (Polynomial Float)).isOk = true ∧
    (ofExpression 2147483648 "x^2147483648*x^2147483648".toList :
      Except _ (Polynomial Float)) = .error .overflow := by
  constructor <;> decide +kernel

end Polynomial

end InkAlgebra

import Mathlib
import InkAlgebra.Number.Notation
import InkAlgebra.Polynomial.Text
import InkAlgebra.Proofs.Equation.Difference
import InkAlgebra.Proofs.Expression.Phrases
import InkAlgebra.Proofs.Polynomial.Monomial
import InkAlgebra.Proofs.Polynomial.Substitution

/-!
# Polynomial texts read back

The text of a polynomial is no expression: it is spaced, and coefficients stand right before the
variable. Without the spaces and with the products written out it is one, and what is read from it
is the polynomial again, term by term and coefficient by coefficient.

The printer says no more than needed. The size one is left out except where it is all there is, the
first sign is written only if it is a minus and all others are written as operations. So the first
term is read in another way than the rest: its minus is a sign, which takes the coefficient alone,
or the power where no coefficient is written.

Sizes are written by a function from outside. Of it is asked only what plain notation keeps for
every finite number: that the size of each coefficient is written in digits with a point, and read
as the same number.

§1 are the texts, §2 their trees, §3 the values of the trees.
-/

namespace InkAlgebra.Polynomial

/-! ## §1  Texts -/

/-- Writes out the products that are left to standing side by side: of a number and the variable
behind it. -/
def insertTimes (behindNumber : Bool) : List Char → List Char
  | [] => []
  | c :: rest =>
      (if behindNumber && c == 'x' then ['*', c] else [c]) ++ insertTimes (isNumeric c) rest

/-- A text without its spaces and with its products written out. -/
def spelledOut (text : List Char) : List Char := insertTimes false (text.filter (· ≠ ' '))

theorem insertTimes_of_head? {rest : List Char} (h : rest.head? ≠ some 'x') (behindNumber : Bool) :
    insertTimes behindNumber rest = insertTimes false rest := by
  cases rest with
  | nil => rfl
  | cons c rest =>
      have hc : (c == 'x') = false := beq_false_of_ne fun heq => h (congrArg some heq)
      rw [insertTimes, insertTimes, hc, Bool.and_false, Bool.and_false]

/-- Within a number no product is left out. -/
theorem insertTimes_append_of_isNumeric {text : List Char} (hne : text ≠ [])
    (h : ∀ c ∈ text, isNumeric c = true) (behindNumber : Bool) (rest : List Char) :
    insertTimes behindNumber (text ++ rest) = text ++ insertTimes true rest := by
  induction text generalizing behindNumber with
  | nil => exact absurd rfl hne
  | cons c text ih =>
      obtain ⟨hc, htext⟩ := List.forall_mem_cons.1 h
      have hx : (c == 'x') = false := beq_false_of_ne fun heq => absurd (heq ▸ hc) (by decide)
      rw [List.cons_append, insertTimes, hx, Bool.and_false, hc]
      cases text with
      | nil => rfl
      | cons d text =>
          rw [ih (by simp) htext]
          rfl

theorem mem_terms_of_mem_reverse {α : Type} {p : Polynomial α} {row : List (Term α)}
    (h : p.terms.reverse = row) {t : Term α} (ht : t ∈ row) : t ∈ p.terms :=
  List.mem_reverse.1 (h ▸ ht)

theorem isNumeric_of_mem_toDigits {n : ℕ} : ∀ c ∈ Nat.toDigits 10 n, isNumeric c = true := by
  intro c hc
  have hdigit : c.isDigit = true := Nat.isDigit_of_mem_toDigits (by decide) (by decide) hc
  rw [isNumeric, hdigit, Bool.true_or]

theorem space_not_mem_of_isNumeric {text : List Char} (h : ∀ c ∈ text, isNumeric c = true) :
    ' ' ∉ text := by
  intro hspace
  exact absurd (h ' ' hspace) (by decide)

theorem filter_space_of_not_mem {text : List Char} (h : ' ' ∉ text) :
    text.filter (· ≠ ' ') = text := by
  refine List.filter_eq_self.2 fun c hc => decide_eq_true ?_
  rintro rfl
  exact h hc

theorem space_not_mem_powerText (d : UInt32) : ' ' ∉ powerText d := by
  unfold powerText
  split
  · exact List.not_mem_nil
  · split
    · decide
    · have hdigits := space_not_mem_of_isNumeric (isNumeric_of_mem_toDigits (n := d.toNat))
      simpa using hdigits

/-- A power stands behind its coefficient with the product written out. -/
theorem insertTimes_powerText {d : UInt32} (hd : d ≠ 0) {rest : List Char}
    (h : rest.head? ≠ some 'x') (behindNumber : Bool) :
    insertTimes behindNumber (powerText d ++ rest) =
      (if behindNumber then ['*'] else []) ++ powerText d ++ insertTimes false rest := by
  have hcaret : isNumeric '^' = false := by decide
  have hx : isNumeric 'x' = false := by decide
  rw [powerText, if_neg hd]
  by_cases hone : d = 1
  · rw [if_pos hone]
    simp only [List.cons_append, List.nil_append, insertTimes, hx]
    cases behindNumber <;> rfl
  · rw [if_neg hone]
    simp only [List.cons_append, insertTimes, hx, hcaret]
    rw [insertTimes_append_of_isNumeric Nat.toDigits_ne_nil isNumeric_of_mem_toDigits,
      insertTimes_of_head? h]
    cases behindNumber <;> rfl

section

variable {α : Type} [Coefficient α]

/-- Whether a number is written in digits with a point, and read from them as it is. -/
structure WrittenPlainly (write : α → List Char) (x : α) : Prop where
  ne_nil : write x ≠ []
  numeric : ∀ c ∈ write x, isNumeric c = true
  reads : readNumber? α (write x) = some x

theorem WrittenPlainly.of_eq {write : α → List Char} {x : α} (text : List Char)
    (h : write x = text) (hne : text ≠ []) (hnumeric : ∀ c ∈ text, isNumeric c = true)
    (hreads : readNumber? α text = some x) : WrittenPlainly write x := by
  subst h
  exact ⟨hne, hnumeric, hreads⟩

/-- The size of a term with its product written out. -/
def spelledSize (write : α → List Char) (t : Term α) : List Char :=
  if t.1 = 0 then write (Scalar.abs t.2)
  else if Scalar.abs t.2 == 1 then powerText t.1
  else write (Scalar.abs t.2) ++ '*' :: powerText t.1

/-- The terms after the first one, each behind its sign, with their products written out. -/
def spelledRest (write : α → List Char) (terms : List (Term α)) : List Char :=
  terms.flatMap fun t => (if t.2 < 0 then '-' else '+') :: spelledSize write t

variable {write : α → List Char} {t : Term α} {terms : List (Term α)}

theorem sizeText_of_zero (h : t.1 = 0) : sizeText write t = write (Scalar.abs t.2) := by
  rw [sizeText, powerText, h, if_pos rfl, List.append_nil]
  rfl

theorem sizeText_of_unit (h : t.1 ≠ 0) (hunit : (Scalar.abs t.2 == 1) = true) :
    sizeText write t = powerText t.1 := by
  simp [sizeText, h, hunit]

theorem sizeText_of_not_unit (hunit : (Scalar.abs t.2 == 1) = false) :
    sizeText write t = write (Scalar.abs t.2) ++ powerText t.1 := by
  simp [sizeText, hunit]

theorem space_not_mem_sizeText (h : WrittenPlainly write (Scalar.abs t.2)) :
    ' ' ∉ sizeText write t := by
  have hsize := space_not_mem_of_isNumeric h.numeric
  have hpower := space_not_mem_powerText t.1
  unfold sizeText
  dsimp only
  split <;> simp [hsize, hpower]

theorem insertTimes_sizeText (h : WrittenPlainly write (Scalar.abs t.2)) {rest : List Char}
    (hrest : rest.head? ≠ some 'x') :
    insertTimes false (sizeText write t ++ rest) =
        spelledSize write t ++ insertTimes false rest := by
  unfold spelledSize
  split
  · rename_i hzero
    rw [sizeText_of_zero hzero, insertTimes_append_of_isNumeric h.ne_nil h.numeric,
      insertTimes_of_head? hrest]
  · rename_i hd
    split
    · rename_i hunit
      rw [sizeText_of_unit hd hunit, insertTimes_powerText hd hrest]
      rfl
    · rename_i hunit
      rw [sizeText_of_not_unit (Bool.eq_false_iff.2 hunit), List.append_assoc,
        insertTimes_append_of_isNumeric h.ne_nil h.numeric, insertTimes_powerText hd hrest]
      simp

theorem filter_restText (h : ∀ t ∈ terms, WrittenPlainly write (Scalar.abs t.2)) :
    (restText write terms).filter (· ≠ ' ') =
      terms.flatMap fun t => (if t.2 < 0 then '-' else '+') :: sizeText write t := by
  induction terms with
  | nil => rfl
  | cons t terms ih =>
      obtain ⟨ht, hterms⟩ := List.forall_mem_cons.1 h
      have hsign : (if t.2 < 0 then " - " else " + ").toList.filter (· ≠ ' ') =
          [if t.2 < 0 then '-' else '+'] := by
        split <;> decide
      rw [restText, List.flatMap_cons, ← restText, List.filter_append, List.filter_append, hsign,
        filter_space_of_not_mem (space_not_mem_sizeText ht), ih hterms, List.flatMap_cons]
      rfl

/-- What follows a term starts with a sign, if with anything. -/
theorem head?_signed (size : Term α → List Char) (terms : List (Term α)) :
    (terms.flatMap fun t => (if t.2 < 0 then '-' else '+') :: size t).head? ≠ some 'x' := by
  cases terms with
  | nil => exact nofun
  | cons t terms =>
      rw [List.flatMap_cons, List.cons_append, List.head?_cons]
      split <;> decide

theorem insertTimes_rest (h : ∀ t ∈ terms, WrittenPlainly write (Scalar.abs t.2)) :
    insertTimes false (terms.flatMap fun t => (if t.2 < 0 then '-' else '+') :: sizeText write t) =
      spelledRest write terms := by
  induction terms with
  | nil => rfl
  | cons t terms ih =>
      obtain ⟨ht, hterms⟩ := List.forall_mem_cons.1 h
      have hsign : isNumeric (if t.2 < 0 then '-' else '+') = false := by
        split <;> decide
      rw [List.flatMap_cons, List.cons_append, insertTimes, hsign,
        insertTimes_sizeText ht (head?_signed _ _), ih hterms]
      rfl

/-- The text of a polynomial, spelled out: its first term behind a minus if it has one, and the
others behind their signs. -/
theorem spelledOut_text {p : Polynomial α} {rest : List (Term α)}
    (hterms : p.terms.reverse = t :: rest)
    (h : ∀ t ∈ p.terms, WrittenPlainly write (Scalar.abs t.2)) :
    spelledOut (p.text write) =
      (if t.2 < 0 then ['-'] else []) ++ spelledSize write t ++ spelledRest write rest := by
  obtain ⟨ht, hrest⟩ := List.forall_mem_cons.1 fun u hu => h u (mem_terms_of_mem_reverse hterms hu)
  have hminus : (if t.2 < 0 then ['-'] else []).filter (· ≠ ' ') = if t.2 <
      0 then ['-'] else [] := by
    split <;> rfl
  rw [spelledOut, text, hterms]
  dsimp only
  rw [List.filter_append, List.filter_append, hminus,
    filter_space_of_not_mem (space_not_mem_sizeText ht), filter_restText hrest,
    List.append_assoc, List.append_assoc]
  have hbody := insertTimes_sizeText ht (head?_signed (sizeText write) rest)
  rw [insertTimes_rest hrest] at hbody
  split
  · rw [List.cons_append, List.nil_append, insertTimes]
    exact congrArg ('-' :: ·) hbody
  · exact hbody

end

/-! ## §2  Trees -/

section

variable {α : Type} [Coefficient α]

def powerTree (d : UInt32) : Expr :=
  if d = 1 then .letter 'x' else .binary .pow (.letter 'x') (.number (Nat.toDigits 10 d.toNat))

def signedIf (negative : Bool) (e : Expr) : Expr := if negative then .signed .minus e else e

/-- The tree of a term. A minus in front takes the coefficient alone, or the power where no
coefficient is written. -/
def termTree (write : α → List Char) (negative : Bool) (t : Term α) : Expr :=
  if t.1 = 0 then signedIf negative (.number (write (Scalar.abs t.2)))
  else if Scalar.abs t.2 == 1 then signedIf negative (powerTree t.1)
  else .binary .mul (signedIf negative (.number (write (Scalar.abs t.2)))) (powerTree t.1)

/-- The tree of a sum, given the tree of its first terms: grouped to the left. -/
def sumTree (write : α → List Char) (first : Expr) (rest : List (Term α)) : Expr :=
  rest.foldl (fun sum t =>
    .binary (if t.2 < 0 then .sub else .add) sum (termTree write false t)) first

/-- The tree of a polynomial's text. -/
def textTree (write : α → List Char) (p : Polynomial α) : Expr :=
  match p.terms.reverse with
  | [] => .number ['0']
  | t :: rest => sumTree write (termTree write (t.2 < 0) t) rest

theorem writesAs_powerTree {d : UInt32} (hd : d ≠ 0) :
    WritesAs .unary (powerText d) (powerTree d) := by
  have hx : WritesAs .atom ['x'] (.letter 'x') := .letter (by decide)
  unfold powerText powerTree
  rw [if_neg hd]
  split
  · exact hx.unary_of_atom
  · have hdigits : WritesAs .atom (Nat.toDigits 10 d.toNat) (.number (Nat.toDigits 10 d.toNat)) :=
      .number Nat.toDigits_ne_nil isNumeric_of_mem_toDigits
    exact hx.raised hdigits.unary_of_atom

theorem writesAs_signedIf {text : List Char} {e : Expr} (negative : Bool)
    (h : WritesAs .unary text e) :
    WritesAs .unary ((if negative then ['-'] else []) ++ text) (signedIf negative e) := by
  cases negative with
  | false => exact h
  | true => exact h.negated

variable {write : α → List Char} {t : Term α}

theorem WrittenPlainly.writesAs {x : α} (h : WrittenPlainly write x) :
    WritesAs .unary (write x) (.number (write x)) :=
  (WritesAs.number h.ne_nil h.numeric).unary_of_atom

theorem writesAs_termTree (negative : Bool) (h : WrittenPlainly write (Scalar.abs t.2)) :
    WritesAs .term ((if negative then ['-'] else []) ++ spelledSize write t)
        (termTree write negative t) := by
  unfold spelledSize termTree
  by_cases hd : t.1 = 0
  · rw [if_pos hd, if_pos hd]
    exact (writesAs_signedIf negative h.writesAs).term_of_unary
  · rw [if_neg hd, if_neg hd]
    by_cases hunit : (Scalar.abs t.2 == 1) = true
    · rw [if_pos hunit, if_pos hunit]
      exact (writesAs_signedIf negative (writesAs_powerTree hd)).term_of_unary
    · rw [if_neg hunit, if_neg hunit]
      have hproduct := (writesAs_signedIf negative h.writesAs).term_of_unary.product (.inl rfl)
          (writesAs_powerTree hd)
      rwa [List.append_assoc, List.append_assoc] at hproduct

theorem writes_sumTree {text : List Char} {first : Expr} (hfirst : Writes text first)
    {rest : List (Term α)} (h : ∀ t ∈ rest, WrittenPlainly write (Scalar.abs t.2)) :
    Writes (text ++ spelledRest write rest) (sumTree write first rest) := by
  induction rest generalizing text first with
  | nil =>
      rw [spelledRest, List.flatMap_nil, List.append_nil]
      exact hfirst
  | cons t rest ih =>
      obtain ⟨ht, hrest⟩ := List.forall_mem_cons.1 h
      have hsource : (Token.op (if t.2 < 0 then Operation.sub else .add).op).source =
          [if t.2 < 0 then '-' else '+'] := by
        split <;> rfl
      have hoperation : (if t.2 < 0 then Operation.sub else .add) = .add ∨
          (if t.2 < 0 then Operation.sub else .add) = .sub := by
        split
        · exact .inr rfl
        · exact .inl rfl
      have hnext := hfirst.sum hoperation (writesAs_termTree false ht)
      have hall := ih hnext hrest
      rw [hsource] at hall
      simpa [spelledRest, sumTree] using hall

theorem writes_zero : Writes ['0'] (.number ['0']) := by
  have hdigit : ∀ c ∈ ['0'], isNumeric c = true := List.all_eq_true.1 rfl
  exact (WritesAs.number (by decide) hdigit).unary_of_atom.term_of_unary.expr_of_term

/-- A text, spelled out, is an expression. -/
theorem writes_textTree {p : Polynomial α}
    (h : ∀ t ∈ p.terms, WrittenPlainly write (Scalar.abs t.2)) :
    Writes (spelledOut (p.text write)) (textTree write p) := by
  unfold textTree
  cases hterms : p.terms.reverse with
  | nil =>
      have htext : spelledOut (p.text write) = ['0'] := by
        rw [text, hterms]
        rfl
      rw [htext]
      exact writes_zero
  | cons t rest =>
      obtain ⟨ht, hrest⟩ := List.forall_mem_cons.1 fun u hu =>
          h u (mem_terms_of_mem_reverse hterms hu)
      have hall := writes_sumTree (writesAs_termTree (t.2 < 0) ht).expr_of_term hrest
      rw [spelledOut_text hterms h]
      simpa only [decide_eq_true_eq] using hall

end

/-! ## §3  Values -/

theorem digitsValue_toDigits (n : ℕ) : digitsValue 0 (Nat.toDigits 10 n) = n :=
  Nat.ofDigitChars_eq_foldl.symm.trans Nat.ofDigitChars_ten_toDigits

/-- A degree is read from its digits. -/
theorem readNumber?_toDigits {α : Type} [Coefficient α] [LawfulWhole α] {n : ℕ}
    (hn : n < UInt32.size) :
    readNumber? α (Nat.toDigits 10 n) = some (Scalar.ofNat n) := by
  have hdigits : ∀ c ∈ Nat.toDigits 10 n, c.isDigit = true := fun c hc =>
    Nat.isDigit_of_mem_toDigits (by decide) (by decide) hc
  obtain ⟨c, cs, hcons⟩ := List.exists_cons_of_ne_nil (Nat.toDigits_ne_nil (n := n) (b := 10))
  have hc : isNumeric c = true :=
    isNumeric_of_mem_toDigits (n := n) c (by rw [hcons]; exact List.mem_cons_self)
  rw [readNumber?, hcons, ofText?_of_isNumeric cs hc, ← hcons,
    literalDecimal?_of_isNumeric isNumeric_of_mem_toDigits, decimal?_of_isDigit hdigits,
    digitsValue_toDigits, hcons]
  show some (Coefficient.ofDecimal n 0) = _
  rw [LawfulWhole.ofDecimal_ofNat hn]

section

variable {α : Type} [Coefficient α] {cap : UInt32} {write : α → List Char} {t : Term α}

theorem value_signedIf (negative : Bool) {e : Expr} {d : UInt32} {c : α}
    (h : (meaning cap).value e = .ok (single d c)) :
    (meaning cap).value (signedIf negative e) = .ok (single d (if negative then -c else c)) := by
  cases negative with
  | false => exact h
  | true =>
      rw [signedIf, if_pos rfl, Meaning.value, h]
      rfl

variable [LawfulZero α]

theorem WrittenPlainly.value {x : α} (h : WrittenPlainly write x) (hx : (x == 0) = false) :
    (meaning cap).value (.number (write x)) = .ok (single 0 x) := by
  rw [← constant_eq_single hx]
  simp [Meaning.value, meaning, ofOperand?, h.reads]

variable [LawfulOne α] [LawfulWhole α]

/-- The variable is worth its power, of whatever degree within the cap. -/
theorem value_powerTree {d : UInt32} (hd : d ≠ 0) (hcap : d ≤ cap) :
    (meaning cap).value (powerTree d) = .ok (single d (1 : α)) := by
  have hx : (meaning cap).value (.letter 'x') = .ok (single 1 (1 : α)) := by
    rw [← indeterminate_eq_single]
    rfl
  unfold powerTree
  split
  · rename_i hone
    rw [hx, hone]
  · have hdigits : (meaning cap).value (.number (Nat.toDigits 10 d.toNat)) =
        .ok (constant (Scalar.ofNat d.toNat : α)) := by
      simp [Meaning.value, meaning, ofOperand?, readNumber?_toDigits d.toNat_lt]
    rw [Meaning.value, hx, hdigits]
    exact power_single hd hcap

variable [LawfulSize α]

omit [LawfulZero α] [LawfulOne α] [LawfulWhole α] in
theorem signed_abs (hzero : (t.2 == 0) = false) :
    (if t.2 < 0 then -Scalar.abs t.2 else Scalar.abs t.2) = t.2 := by
  split
  · rename_i hneg
    exact LawfulSize.neg_abs hneg
  · rename_i hneg
    exact LawfulSize.abs_of_not_lt hzero hneg

/-- **A term** is worth itself. -/
theorem value_termTree (negative : Bool) (h : WrittenPlainly write (Scalar.abs t.2))
    (hzero : (t.2 == 0) = false) (hcap : t.1 ≤ cap) :
    (meaning cap).value (termTree write negative t) =
      .ok (single t.1 (if negative then -Scalar.abs t.2 else Scalar.abs t.2)) := by
  have hsize : (Scalar.abs t.2 == 0) = false := LawfulSize.abs_beq_zero hzero
  have hsigned : ((if negative then -Scalar.abs t.2 else Scalar.abs t.2) == 0) = false := by
    cases negative with
    | false => exact hsize
    | true => exact LawfulZero.neg_beq_zero hsize
  have hnumber := value_signedIf negative (h.value hsize : (meaning cap).value _ = _)
  unfold termTree
  by_cases hd : t.1 = 0
  · rw [if_pos hd, hnumber, hd]
  · rw [if_neg hd]
    by_cases hunit : (Scalar.abs t.2 == 1) = true
    · rw [if_pos hunit, value_signedIf negative (value_powerTree hd hcap),
        LawfulOne.eq_one_of_beq hunit]
    · rw [if_neg hunit, Meaning.value, hnumber, value_powerTree hd hcap]
      show (single 0 _).multiply (single t.1 1) = _
      rw [multiply_single_one (by simpa using t.1.toNat_lt) hsigned, UInt32.zero_add]

/-- A further term is added with the sign it has, whether it is written as a sum or as a
difference. -/
theorem value_next {sum : Expr} {q : Polynomial α} (hsum : (meaning cap).value sum = .ok q)
    (h : WrittenPlainly write (Scalar.abs t.2)) (hzero : (t.2 == 0) = false) (hcap : t.1 ≤ cap) :
    (meaning cap).value (.binary (if t.2 < 0 then .sub else .add) sum (termTree write false t)) =
      .ok (q.plus (single t.1 t.2)) := by
  have hterm := value_termTree false h hzero hcap
  rw [if_neg Bool.false_ne_true] at hterm
  rw [Meaning.value, hsum, hterm]
  have hsigned := signed_abs hzero
  by_cases hneg : t.2 < 0
  · rw [if_pos hneg] at hsigned ⊢
    show Except.ok (q.plus (single t.1 (Scalar.abs t.2)).neg) = _
    rw [neg_single, hsigned]
  · rw [if_neg hneg] at hsigned ⊢
    show Except.ok (q.plus (single t.1 (Scalar.abs t.2))) = _
    rw [hsigned]

/-- **A sum** with descending degrees is worth the polynomial of its terms. -/
theorem exists_value_sumTree {first : Expr} {q : Polynomial α}
    (hfirst : (meaning cap).value first = .ok q) (hq : q.Reduced) {rest : List (Term α)}
    (hdescending : rest.Pairwise fun s t => t.1 < s.1)
    (hbelow : ∀ t ∈ rest, ∀ u ∈ q.terms, t.1 < u.1)
    (hplain : ∀ t ∈ rest, WrittenPlainly write (Scalar.abs t.2))
    (hzero : ∀ t ∈ rest, (t.2 == 0) = false) (hcap : ∀ t ∈ rest, t.1 ≤ cap) :
    ∃ r, (meaning cap).value (sumTree write first rest) = .ok r ∧
      r.terms = rest.reverse ++ q.terms := by
  -- what is summed up so far is reduced and lies above all that is to come
  induction rest generalizing first q with
  | nil => exact ⟨q, hfirst, rfl⟩
  | cons t rest ih =>
      obtain ⟨hlower, hrest⟩ := List.pairwise_cons.1 hdescending
      obtain ⟨htbelow, hrestbelow⟩ := List.forall_mem_cons.1 hbelow
      obtain ⟨htplain, hrestplain⟩ := List.forall_mem_cons.1 hplain
      obtain ⟨htzero, hrestzero⟩ := List.forall_mem_cons.1 hzero
      obtain ⟨htcap, hrestcap⟩ := List.forall_mem_cons.1 hcap
      have hnext := value_next hfirst htplain htzero htcap
      have hterms : (q.plus (single t.1 t.2)).terms = t :: q.terms :=
        terms_plus_single hq htzero htbelow
      have hbelow' : ∀ u ∈ rest, ∀ v ∈ (q.plus (single t.1 t.2)).terms, u.1 < v.1 := by
        intro u hu
        rw [hterms]
        exact List.forall_mem_cons.2 ⟨hlower u hu, hrestbelow u hu⟩
      obtain ⟨r, hvalue, hr⟩ :=
        ih hnext (reduced_ofTerms _) hrest hbelow' hrestplain hrestzero hrestcap
      refine ⟨r, hvalue, ?_⟩
      rw [hr, hterms, List.reverse_cons, List.append_assoc]
      rfl

/-- **A text** is worth the polynomial that it is the text of. -/
theorem value_textTree {p : Polynomial α} (hp : p.Reduced)
    (hplain : ∀ t ∈ p.terms, WrittenPlainly write (Scalar.abs t.2)) (hcap : p.degree ≤ cap) :
    (meaning cap).value (textTree write p) = .ok p := by
  unfold textTree
  cases hterms : p.terms.reverse with
  | nil =>
      have hzero : zero = p := eq_of_terms (List.reverse_eq_nil_iff.1 hterms).symm
      rw [← ofExpression_of_writes writes_zero, ofExpression_zero, hzero]
  | cons t rest =>
      have hsplit : p.terms = rest.reverse ++ [t] := by
        rw [← List.reverse_cons, ← hterms, List.reverse_reverse]
      obtain ⟨ht, hrest⟩ := List.forall_mem_cons.1 fun u hu => mem_terms_of_mem_reverse hterms hu
      obtain ⟨hascending, _, hlast⟩ := List.pairwise_append.1 (hsplit ▸ p.ascending)
      have hbelow : ∀ u ∈ rest, ∀ v ∈ (single t.1 t.2).terms, u.1 < v.1 := fun u hu v hv =>
        List.mem_singleton.1 hv ▸ hlast u (List.mem_reverse.2 hu) t List.mem_cons_self
      have hwithin : ∀ u ∈ p.terms, u.1 ≤ cap := fun u hu =>
        UInt32.le_trans (UInt32.le_iff_toNat_le.2 (le_degree hu)) hcap
      have hfirst : (meaning cap).value (termTree write (t.2 < 0) t) = .ok (single t.1 t.2) := by
        have hterm := value_termTree (t.2 < 0) (hplain t ht) (hp t ht) (hwithin t ht)
        simpa only [decide_eq_true_eq, signed_abs (hp t ht)] using hterm
      obtain ⟨r, hr, hrterms⟩ := exists_value_sumTree hfirst (reduced_single t.1 (hp t ht))
        (List.pairwise_reverse.1 hascending) hbelow (fun u hu => hplain u (hrest u hu))
        (fun u hu => hp u (hrest u hu))
        fun u hu => hwithin u (hrest u hu)
      dsimp only
      rw [hr]
      exact congrArg Except.ok (eq_of_terms (hrterms.trans hsplit.symm))

/-- **Polynomial texts read back.** The text of a polynomial that stores no zero, as none does that
has been made, and whose coefficients are written in plain digits, is read back as the polynomial,
under every cap that its degree is within. -/
theorem ofExpression_spelledOut_text {p : Polynomial α} (hp : p.Reduced)
    (hplain : ∀ t ∈ p.terms, WrittenPlainly write (Scalar.abs t.2)) (hcap : p.degree ≤ cap) :
    ofExpression cap (spelledOut (p.text write)) = .ok p := by
  rw [ofExpression_of_writes (writes_textTree hplain), value_textTree hp hplain hcap]

end

/-- A sign in front of a power, a size that is written and one that is not, and a gap between the
degrees. -/
def gapped : Polynomial Float := ofTerms [(0, -0.5), (1, 1), (3, 2.25), (12, -1)]

theorem gapped_reads_back :
    gapped.Reduced ∧ (∀ t ∈ gapped.terms, WrittenPlainly plainText (Scalar.abs t.2)) ∧
      gapped.degree ≤ 12 ∧ spelledOut (gapped.text plainText) = "-x^12+2.25*x^3+x-0.5".toList ∧
      ofExpression 12 "-x^12+2.25*x^3+x-0.5".toList = .ok gapped := by
  have hreduced : gapped.Reduced := reduced_ofTerms _
  have hdegree : gapped.degree ≤ 12 := by decide +kernel
  have hsizes : gapped.terms.map (fun t => Scalar.abs t.2) = [0.5, 1, 2.25, 1] := by decide +kernel
  have hhalf : WrittenPlainly plainText (0.5 : Float) :=
    .of_eq ['0', '.', '5'] (by decide +kernel) (by decide)
      (List.all_eq_true.1 rfl) (by decide +kernel)
  have hone : WrittenPlainly plainText (1 : Float) :=
    .of_eq ['1'] (by decide +kernel) (by decide) (List.all_eq_true.1 rfl) (by decide +kernel)
  have hquarters : WrittenPlainly plainText (2.25 : Float) :=
    .of_eq ['2', '.', '2', '5'] (by decide +kernel) (by decide)
      (List.all_eq_true.1 rfl) (by decide +kernel)
  have hplain : ∀ t ∈ gapped.terms, WrittenPlainly plainText (Scalar.abs t.2) := by
    refine List.forall_mem_map.1 ?_
    rw [hsizes]
    simp only [List.forall_mem_cons]
    exact ⟨hhalf, hone, hquarters, hone, nofun⟩
  have htext : spelledOut (gapped.text plainText) =
      "-x^12+2.25*x^3+x-0.5".toList := by decide +kernel
  exact ⟨hreduced, hplain, hdegree, htext,
    htext ▸ ofExpression_spelledOut_text hreduced hplain hdegree⟩

end InkAlgebra.Polynomial

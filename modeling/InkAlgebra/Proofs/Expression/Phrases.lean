import Mathlib
import InkAlgebra.Proofs.Expression.Parsing
import InkAlgebra.Proofs.Expression.Value

/-!
# Phrases and their texts

How texts of phrases are put together, and what a text tells about its phrase: an expression without
sums is a term, a unary phrase without signs and powers is an atom. An operator in front of a term
is the critical case. The grammar reads it, but the operator takes the first factor only, so that
what is read is a product again and never the operator applied to the whole term.

§1 puts texts together, §2 tightens phrases, §3 is operators in front of terms, §4 zeros in front of
numbers.
-/

namespace InkAlgebra

namespace WritesAs

variable {left right text : List Char} {a b e : Expr}

/-! ## §1  Composed texts -/

theorem number (hne : text ≠ []) (h : ∀ c ∈ text, isNumeric c = true) :
    WritesAs .atom text (.number text) :=
  ⟨_, .number hne h, by simp [Token.source, Token.name]⟩

theorem letter {c : Char} (h : isLetter c = true) : WritesAs .atom [c] (.letter c) :=
  ⟨_, .letter h, rfl⟩

theorem unary_of_atom (h : WritesAs .atom text e) : WritesAs .unary text e := by
  obtain ⟨row, hrow, htext⟩ := h
  exact ⟨row, .ofPower (.ofAtom hrow), htext⟩

theorem term_of_unary (h : WritesAs .unary text e) : WritesAs .term text e := by
  obtain ⟨row, hrow, htext⟩ := h
  exact ⟨row, .ofUnary hrow, htext⟩

theorem expr_of_term (h : WritesAs .term text e) : Writes text e := by
  obtain ⟨row, hrow, htext⟩ := h
  exact ⟨row, .ofTerm hrow, htext⟩

theorem bracketed (h : Writes text e) : WritesAs .atom ('(' :: text ++ [')']) e := by
  obtain ⟨row, hrow, rfl⟩ := h
  have hpair : ('(', ')') ∈ bracketPairs := by decide
  exact ⟨_, .bracket hpair hrow, by simp [Token.source, Token.name]⟩

theorem negated (h : WritesAs .unary text e) :
    WritesAs .unary ('-' :: text) (.signed .minus e) := by
  obtain ⟨row, hrow, rfl⟩ := h
  exact ⟨_, .sign .minus hrow, rfl⟩

theorem sum {o : Operation} (h : WritesAs .expr left a) (ho : o = .add ∨ o = .sub)
    (h' : WritesAs .term right b) :
    Writes (left ++ (Token.op o.op).source ++ right) (.binary o a b) := by
  obtain ⟨row, hrow, rfl⟩ := h
  obtain ⟨row', hrow', rfl⟩ := h'
  exact ⟨_, .sum hrow ho hrow', by simp⟩

theorem product {o : Operation} (h : WritesAs .term left a) (ho : o = .mul ∨ o = .div)
    (h' : WritesAs .unary right b) :
    WritesAs .term (left ++ (Token.op o.op).source ++ right) (.binary o a b) := by
  obtain ⟨row, hrow, rfl⟩ := h
  obtain ⟨row', hrow', rfl⟩ := h'
  exact ⟨_, .product hrow ho hrow', by simp⟩

theorem quotient (h : WritesAs .term left a) (h' : WritesAs .unary right b) :
    WritesAs .term (left ++ '/' :: right) (.binary .div a b) := by
  have hprod := h.product (.inr rfl) h'
  rwa [List.append_assoc] at hprod

theorem raised (h : WritesAs .atom left a) (h' : WritesAs .unary right b) :
    WritesAs .unary (left ++ '^' :: right) (.binary .pow a b) := by
  obtain ⟨row, hrow, rfl⟩ := h
  obtain ⟨row', hrow', rfl⟩ := h'
  exact ⟨_, .ofPower (.power hrow hrow'), by simp; rfl⟩

/-! ## §2  Tighter phrases -/

/-- An expression without sums is a term. -/
theorem term_of_not_mem (h : Writes text e) (hadd : '+' ∉ text) (hsub : '-' ∉ text) :
    WritesAs .term text e := by
  obtain ⟨row, hrow, rfl⟩ := h
  cases hrow with
  | ofTerm hrow => exact ⟨row, hrow, rfl⟩
  | sum hleft ho hright =>
      rcases ho with rfl | rfl
      · exact absurd
          (List.mem_flatMap.2 ⟨_, List.mem_append_right _ List.mem_cons_self, by decide⟩) hadd
      · exact absurd
          (List.mem_flatMap.2 ⟨_, List.mem_append_right _ List.mem_cons_self, by decide⟩) hsub

/-- A unary phrase without signs and powers is an atom. -/
theorem atom_of_not_mem (h : WritesAs .unary text e) (hadd : '+' ∉ text) (hsub : '-' ∉ text)
    (hpow : '^' ∉ text) : WritesAs .atom text e := by
  obtain ⟨row, hrow, rfl⟩ := h
  cases hrow with
  | sign s hrow =>
      cases s with
      | plus => exact absurd (List.mem_flatMap.2 ⟨_, List.mem_cons_self, by decide⟩) hadd
      | minus => exact absurd (List.mem_flatMap.2 ⟨_, List.mem_cons_self, by decide⟩) hsub
  | ofPower hrow =>
      cases hrow with
      | ofAtom hrow => exact ⟨row, hrow, rfl⟩
      | power hleft hright =>
          exact absurd
            (List.mem_flatMap.2 ⟨_, List.mem_append_right _ List.mem_cons_self, by decide⟩) hpow

/-- A term is a unary phrase or ends in an operation on one. -/
theorem unary_or_product (h : WritesAs .term text e) :
    WritesAs .unary text e ∨ ∃ left right a b, ∃ o : Operation, (o = .mul ∨ o = .div) ∧
      text = left ++ (Token.op o.op).source ++ right ∧ e = .binary o a b ∧
      WritesAs .term left a ∧ WritesAs .unary right b := by
  obtain ⟨row, hrow, rfl⟩ := h
  cases hrow with
  | ofUnary hrow => exact .inl ⟨row, hrow, rfl⟩
  | product hleft ho hright =>
      exact .inr ⟨_, _, _, _, _, ho, by simp, rfl, ⟨_, hleft, rfl⟩, ⟨_, hright, rfl⟩⟩

/-! ## §3  Operators in front of terms -/

/-- Whatever can stand in front of a unary phrase to make a term can stand in front of a term. -/
theorem exists_term_append {front : List Char}
    (hfront : ∀ {right b}, WritesAs .unary right b → ∃ e, WritesAs .term (front ++ right) e)
    (h : WritesAs .term right b) : ∃ e, WritesAs .term (front ++ right) e := by
  obtain ⟨row, hrow, rfl⟩ := h
  generalize hp : Phrase.term = p at hrow
  -- down the left sides of the products to the first factor, which is what `front` gets hold of
  induction hrow with
  | ofUnary hunary _ => exact hfront ⟨_, hunary, rfl⟩
  | product hleft ho hright ihLeft _ =>
      obtain ⟨e, he⟩ := ihLeft rfl
      have hprod := he.product ho ⟨_, hright, rfl⟩
      exact ⟨_, by simpa using hprod⟩
  | _ => cases hp

theorem exists_quotient (h : WritesAs .term left a) (h' : WritesAs .term right b) :
    ∃ e, WritesAs .term (left ++ '/' :: right) e := by
  have happend : ∃ e, WritesAs .term ((left ++ ['/']) ++ right) e :=
    exists_term_append (fun {_ _} hunary => ⟨_, by simpa using h.quotient hunary⟩) h'
  simpa using happend

theorem exists_raised (h : WritesAs .atom left a) (h' : WritesAs .term right b) :
    ∃ e, WritesAs .term (left ++ '^' :: right) e := by
  have happend : ∃ e, WritesAs .term ((left ++ ['^']) ++ right) e :=
    exists_term_append (fun {_ _} hunary => ⟨_, by simpa using (h.raised hunary).term_of_unary⟩) h'
  simpa using happend

end WritesAs

/-! ## §4  Zeros in front of numbers -/

theorem decimal?_cons_zero {text : List Char} (h : text.any Char.isDigit = true) :
    decimal? ('0' :: text) = decimal? text := by
  have hany : ('0' :: text).any Char.isDigit = true := by simp [h]
  have hcount : ('0' :: text).count '.' = text.count '.' := List.count_cons_of_ne (by decide)
  have hfilter : ('0' :: text).filter Char.isDigit = '0' :: text.filter Char.isDigit := rfl
  have hpoint : ('0' :: text).dropWhile (· ≠ '.') = text.dropWhile (· ≠ '.') := rfl
  unfold decimal?
  rw [hany, h, hcount, hfilter, hpoint]
  rfl

theorem decimal?_zeros {text : List Char} (h : text.any Char.isDigit = true) (m : ℕ) :
    decimal? (List.replicate m '0' ++ text) = decimal? text := by
  induction m with
  | zero => rfl
  | succ m ih =>
      rw [List.replicate_succ, List.cons_append, decimal?_cons_zero, ih]
      simp [h]

theorem number_cons_eq_append {text : List Char} {rest left right : List Token} {o : Op}
    (h : Token.number text :: rest = left ++ .op o :: right) :
    ∃ more, left = .number text :: more ∧ rest = more ++ .op o :: right := by
  cases left with
  | nil => cases h
  | cons t more =>
      obtain ⟨rfl, hrest⟩ := List.cons.inj h
      exact ⟨more, rfl, hrest⟩

/-- The number that a row starts with can be spelled in another way. -/
theorem Derives.respell {p : Phrase} {text text' : List Char} {rest : List Token} {e : Expr}
    (h : Derives p (.number text :: rest) e) (hne : text' ≠ [])
    (hnumeric : ∀ c ∈ text', isNumeric c = true) (hsame : decimal? text' = decimal? text) :
    ∃ e', Derives p (.number text' :: rest) e' ∧ e'.Alike e := by
  generalize hrow : Token.number text :: rest = row at h
  -- the first token is that of the leftmost operand, so the induction follows left sides only
  induction h generalizing rest with
  | ofTerm _ ih =>
      obtain ⟨e', he', halike⟩ := ih hrow
      exact ⟨e', .ofTerm he', halike⟩
  | ofUnary _ ih =>
      obtain ⟨e', he', halike⟩ := ih hrow
      exact ⟨e', .ofUnary he', halike⟩
  | ofPower _ ih =>
      obtain ⟨e', he', halike⟩ := ih hrow
      exact ⟨e', .ofPower he', halike⟩
  | ofAtom _ ih =>
      obtain ⟨e', he', halike⟩ := ih hrow
      exact ⟨e', .ofAtom he', halike⟩
  | @sum _ _ _ b o _ ho hright ih _ =>
      obtain ⟨more, rfl, rfl⟩ := number_cons_eq_append hrow
      obtain ⟨a', ha', halike⟩ := ih rfl
      exact ⟨_, .sum ha' ho hright, .binary o halike (.refl b)⟩
  | @product _ _ _ b o _ ho hright ih _ =>
      obtain ⟨more, rfl, rfl⟩ := number_cons_eq_append hrow
      obtain ⟨a', ha', halike⟩ := ih rfl
      exact ⟨_, .product ha' ho hright, .binary o halike (.refl b)⟩
  | @power _ _ _ b _ hright ih _ =>
      obtain ⟨more, rfl, rfl⟩ := number_cons_eq_append hrow
      obtain ⟨a', ha', halike⟩ := ih rfl
      exact ⟨_, .power ha' hright, .binary .pow halike (.refl b)⟩
  | sign s _ _ => cases hrow
  | number _ _ =>
      cases hrow
      exact ⟨_, .number hne hnumeric, .number hsame⟩
  | letter _ => cases hrow
  | bracket _ _ _ => cases hrow

/-- A row either starts with a number, or its text does not start with a digit. -/
theorem Derives.starts {p : Phrase} {row : List Token} {e : Expr} (h : Derives p row e) :
    (∃ c cs rest, row = .number (c :: cs) :: rest ∧ ∀ d ∈ c :: cs, isNumeric d = true) ∨
      ∃ c rest, row.flatMap Token.source = c :: rest ∧ c.isDigit = false := by
  induction h with
  | ofTerm _ ih | ofUnary _ ih | ofPower _ ih | ofAtom _ ih => exact ih
  | sum _ _ _ ih _ | product _ _ _ ih _ | power _ _ ih _ =>
      rcases ih with ⟨c, cs, rest, rfl, hnumeric⟩ | ⟨c, rest, heq, hc⟩
      · exact .inl ⟨c, cs, _, rfl, hnumeric⟩
      · exact .inr ⟨c, _, by rw [List.flatMap_append, heq, List.cons_append], hc⟩
  | sign s _ _ =>
      cases s with
      | plus => exact .inr ⟨'+', _, rfl, by decide⟩
      | minus => exact .inr ⟨'-', _, rfl, by decide⟩
  | @number text hne hnumeric =>
      obtain ⟨c, cs, rfl⟩ := List.exists_cons_of_ne_nil hne
      exact .inl ⟨c, cs, [], rfl, hnumeric⟩
  | @letter c hc =>
      have hdigit : c.isDigit = false :=
        (Bool.or_eq_false_iff.1 (isNumeric_eq_false_of_isLetter hc)).1
      exact .inr ⟨c, [], rfl, hdigit⟩
  | @bracket _ _ o c hpair _ _ =>
      have hopen : o.isDigit = false := by
        rcases mem_bracketPairs.1 hpair with ⟨rfl, _⟩ | ⟨rfl, _⟩ | ⟨rfl, _⟩ <;> rfl
      exact .inr ⟨o, _, rfl, hopen⟩

theorem WritesAs.ne_nil {p : Phrase} {text : List Char} {e : Expr} (h : WritesAs p text e) :
    text ≠ [] := by
  obtain ⟨row, hrow, rfl⟩ := h
  rcases hrow.starts with ⟨c, cs, rest, rfl, _⟩ | ⟨c, rest, heq, _⟩
  · exact List.cons_ne_nil c _
  · rw [heq]
    exact List.cons_ne_nil c rest

/-- **Zeros.** A text that starts with a digit means the same with zeros in front. -/
theorem WritesAs.exists_zeros {p : Phrase} {text : List Char} {e : Expr} (h : WritesAs p text e)
    {m : ℕ} (hm : m = 0 ∨ text.head?.any Char.isDigit = true) :
    ∃ e', WritesAs p (List.replicate m '0' ++ text) e' ∧ e'.Alike e := by
  rcases hm with rfl | hhead
  · exact ⟨e, h, .refl e⟩
  obtain ⟨row, hrow, rfl⟩ := h
  rcases hrow.starts with ⟨c, cs, rest, rfl, hnumeric⟩ | ⟨c, rest, heq, hc⟩
  · have hdigit : c.isDigit = true := hhead
    have hspelled : ∀ d ∈ List.replicate m '0' ++ c :: cs, isNumeric d = true := by
      intro d hd
      rcases List.mem_append.1 hd with hd | hd
      · rw [List.eq_of_mem_replicate hd]
        decide
      · exact hnumeric d hd
    have hany : (c :: cs).any Char.isDigit = true := by simp [hdigit]
    obtain ⟨e', he', halike⟩ := hrow.respell (by simp) hspelled (decimal?_zeros hany m)
    exact ⟨e', ⟨_, he', by simp [Token.source, Token.name]⟩, halike⟩
  · rw [heq, List.head?_cons, Option.any_some, hc] at hhead
    exact absurd hhead (by decide)

end InkAlgebra

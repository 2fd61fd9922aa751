import Mathlib
import InkAlgebra.Proofs.Equation.Outcome
import InkAlgebra.Proofs.Equation.Renaming
import InkAlgebra.Proofs.Expression.Junctions
import InkAlgebra.Proofs.Expression.Regrouping

/-!
# Texts that stand apart

A text that is written between two others without brackets need not mean there what it means in
brackets. Its numbers can go on into the others, or the others into them; what waits in front for an
operand gets hold of its beginning only; a power behind it of its end. `StandsApart` excludes just
this, by looking at one character on each side, and at one more in front of signs. A term that
stands apart means in any row, expression or not, what it means in brackets.

The characters are those of handwriting, before products are written out, for that is where brackets
are put or left off; the tokens are those of the canonical form.

§1 says what stands apart, §2 what waits behind a text, §3 how a text between others is split, §4
what a row is formally worth, §5 is equations, §6 other letters than `x`.
-/

open Polynomial

namespace InkAlgebra

/-! ## §1  Texts that stand apart -/

/-- Whether a character can be a sign. -/
def isSignChar (c : Char) : Bool := c = '+' || c = '-'

/-- Whether no operand goes on from one character of handwriting to the next: a product is written
between the two, or none ends with the first, or none starts with the second. -/
def parted (a b : Char) : Bool :=
  needsProduct a b || !(endsOperand (canonicalMark a) && startsOperand (canonicalMark b))

/-- Whether a text can stand between two others as it would in brackets: operands do not go on into
the others, no quotient or power waits in front for an operand, be it behind signs, and no power
follows. -/
structure StandsApart (before text after : List Char) : Prop where
  left : ∀ l ∈ before.getLast?, ∀ h ∈ text.head?, parted l h = true
  right : ∀ e ∈ text.getLast?, ∀ r ∈ after.head?, parted e r = true
  waiting : ∀ c ∈ (before.rdropWhile isSignChar).getLast?, c ∉ ['/', ':', '^']
  raised : '^' ∉ after.head?

theorem endsOperand_canonicalMark (c : Char) :
    endsOperand (canonicalMark c) =
        (isNumeric (canonicalMark c) || isLetter c || isClosingChar c) := by
  rw [endsOperand, (classes_canonicalMark c).2.1, (classes_canonicalMark c).2.2.2]

theorem startsOperand_canonicalMark (c : Char) :
    startsOperand (canonicalMark c) =
        (isNumeric (canonicalMark c) || isLetter c || isOpeningChar c) := by
  rw [startsOperand, (classes_canonicalMark c).2.1, (classes_canonicalMark c).2.2.1]

/-- A product is written in front of a bracket behind operands and closing brackets. -/
theorem needsProduct_round (l : Char) :
    needsProduct l '(' = (isOperandChar l || isClosingChar l) := by
  have hround : isLetter '(' = false ∧ isOperandChar '(' = false ∧
      isOpeningChar '(' = true := by decide
  simp [needsProduct, hround]

theorem needsProduct_behind_round (r : Char) :
    needsProduct ')' r = (isOpeningChar r || isOperandChar r) := by
  have hround : isLetter ')' = false ∧ isOperandChar ')' = false ∧ isClosingChar ')' = true ∧
      (')' : Char).isDigit = false := by decide
  simp [needsProduct, hround]

/-- In front of a bracket the same product is written as in front of an operand that is kept
apart. -/
theorem needsProduct_round_of_parted {l h : Char} (hparted : parted l h = true)
    (hstarts : startsOperand (canonicalMark h) = true) :
    needsProduct l h = needsProduct l '(' ∧
        (needsProduct l '(' = false → endsOperand (canonicalMark l) = false) := by
  rw [needsProduct_round]
  cases hneeds : needsProduct l h with
  | true =>
      have hends : (isOperandChar l || isClosingChar l) = true := by
        revert hneeds
        simp only [needsProduct, isOperandChar]
        cases l.isDigit <;> cases isLetter l <;> cases isClosingChar l <;> simp
      rw [hends]
      exact ⟨rfl, Bool.noConfusion⟩
  | false =>
      have hends : endsOperand (canonicalMark l) = false := by
        simpa [parted, hneeds, hstarts] using hparted
      have hnone : (isOperandChar l || isClosingChar l) = false := by
        rw [endsOperand_canonicalMark, isNumeric, (classes_canonicalMark l).1] at hends
        simp only [Bool.or_eq_false_iff] at hends ⊢
        exact ⟨Bool.or_eq_false_iff.2 ⟨hends.1.1.1, hends.1.2⟩, hends.2⟩
      exact ⟨hnone.symm, fun _ => hends⟩

/-- Behind a bracket the same product is written as behind an operand that is kept apart. -/
theorem needsProduct_behind_round_of_parted {e r : Char} (hparted : parted e r = true)
    (hends : endsOperand (canonicalMark e) = true) :
    needsProduct e r = needsProduct ')' r ∧
        (needsProduct ')' r = false → startsOperand (canonicalMark r) = false) := by
  rw [needsProduct_behind_round]
  cases hneeds : needsProduct e r with
  | true =>
      have hstarts : (isOpeningChar r || isOperandChar r) = true := by
        revert hneeds
        simp only [needsProduct, isOperandChar]
        cases r.isDigit <;> cases isLetter r <;> cases isOpeningChar r <;> simp
      rw [hstarts]
      exact ⟨rfl, Bool.noConfusion⟩
  | false =>
      have hstarts : startsOperand (canonicalMark r) = false := by
        simpa [parted, hneeds, hends] using hparted
      have hnone : (isOpeningChar r || isOperandChar r) = false := by
        rw [startsOperand_canonicalMark, isNumeric, (classes_canonicalMark r).1] at hstarts
        simp only [Bool.or_eq_false_iff] at hstarts ⊢
        exact ⟨hstarts.2, Bool.or_eq_false_iff.2 ⟨hstarts.1.1.1, hstarts.1.2⟩⟩
      exact ⟨hnone.symm, fun _ => hstarts⟩

/-- Signs at the end of a text stay there. -/
theorem rdropWhile_writeProducts (text : List Char) :
    (writeProducts none text).rdropWhile isSignChar =
      writeProducts none (text.rdropWhile isSignChar) := by
  induction text using List.reverseRecOn with
  | nil => rfl
  | append_singleton text c ih =>
      cases hc : isSignChar c with
      | true =>
          have hmark : productMark text.getLast? c = [] ∧ canonicalMark c = c := by
            rcases (Bool.or_eq_true ..).mp hc with h | h
            all_goals
              obtain rfl := of_decide_eq_true h
              refine ⟨?_, rfl⟩
              unfold productMark
              rw [if_neg]
              rw [Bool.not_eq_true, Option.any_eq_false]
              intro l _
              exact needsProduct_eq_false_right (by decide) (by decide) l
          rw [writeProducts_concat, hmark.1, hmark.2, List.append_nil,
            List.rdropWhile_concat_pos _ _ _ hc, List.rdropWhile_concat_pos _ _ _ hc, ih]
      | false =>
          have hmark : ¬ isSignChar (canonicalMark c) = true := by
            rw [Bool.not_eq_true]
            revert hc
            unfold canonicalMark
            split
            case h_8 => exact id
            all_goals decide
          rw [writeProducts_concat, List.rdropWhile_concat_neg _ _ _ hmark,
            List.rdropWhile_concat_neg _ _ _ (Bool.not_eq_true _ ▸ hc), writeProducts_concat]

/-! ## §2  What waits behind a text -/

/-- A sign is read behind no operand. -/
theorem endsOperand_of_signAfter {text : List Char} (h : signAfter true text = true) :
    ∀ c ∈ text.getLast?, endsOperand c = false := by
  intro c hc
  obtain ⟨front, rfl⟩ := List.getLast?_eq_some_iff.1 hc
  cases hends : endsOperand c with
  | false => rfl
  | true =>
      rw [signAfter_of_endsOperand hends] at h
      cases h

/-- Behind a text that ends with no operand, and whose signs stand behind no quotient and no power,
only products and signs wait for an operand. -/
theorem endsLoose_tokenize {text : List Char} (hends : ∀ c ∈ text.getLast?, endsOperand c = false)
    (hwaiting : ∀ c ∈ (text.rdropWhile isSignChar).getLast?, c ≠ '/' ∧ c ≠ '^') :
    EndsLoose (tokenize text) := by
  induction text using List.reverseRecOn with
  | nil => exact endsLoose_nil
  | append_singleton text c ih =>
      have hc : endsOperand c = false := hends c List.getLast?_concat
      simp only [endsOperand, Bool.or_eq_false_iff] at hc
      obtain ⟨⟨hnumeric, hletter⟩, hclosing⟩ := hc
      have hrow : tokenize (text ++ [c]) =
          tokenize text ++ [Token.ofChar (signAfter true text) c] := by
        have hnone : startsNumeric [c] = false := hnumeric
        unfold tokenize
        rw [tokenizeFrom_append true fun _ _ _ => hnone, tokenizeFrom_of_not_isNumeric _ _ hnumeric]
        rfl
      have hsource := source_ofChar (signAfter true text) c
      rw [hrow]
      rcases ofChar_cases (signAfter true text) c with
        ⟨_, ht⟩ | ⟨hkind, _⟩ | ⟨hkind, _⟩ | ⟨o, hsign, ht⟩ | ht
      · rw [ht]
        exact endsLoose_opening _ c
      · rw [hclosing] at hkind
        cases hkind
      · rw [hletter] at hkind
        cases hkind
      · rw [ht] at hsource ⊢
        apply endsLoose_op
        · -- no quotient and no power is the last character
          have hlast : ¬ isSignChar c = true → c ≠ '/' ∧ c ≠ '^' := by
            intro hc
            apply hwaiting c
            rw [List.rdropWhile_concat_neg _ _ _ hc]
            exact List.getLast?_concat
          constructor
          · rintro rfl
            obtain rfl : '/' = c := (List.cons.inj hsource).1
            exact (hlast (by decide)).1 rfl
          · rintro rfl
            obtain rfl : '^' = c := (List.cons.inj hsource).1
            exact (hlast (by decide)).2 rfl
        · intro hunary
          have hc : isSignChar c = true := by
            cases o with
            | neg =>
                obtain rfl : '-' = c := (List.cons.inj hsource).1
                rfl
            | pos =>
                obtain rfl : '+' = c := (List.cons.inj hsource).1
                rfl
            | add | sub | mul | div | pow => cases hunary
          rw [List.rdropWhile_concat_pos _ _ _ hc] at hwaiting
          exact ih (endsOperand_of_signAfter (hsign hunary)) hwaiting
      · rw [ht]
        exact endsLoose_unknown _ c

/-! ## §3  Texts in rows -/

/-- What stands in front of a bracket behind a text, with the product between the two. -/
def frontText (before : List Char) : List Char :=
  writeProducts none before ++ productMark before.getLast? '('

/-- What stands behind a bracket in front of a text, with the product between the two. -/
def behindText (after : List Char) : List Char := writeProducts (some ')') after

theorem frontText_cases (before : List Char) : (∃ front, frontText before = front ++ ['*']) ∨
    frontText before = writeProducts none before ∧ ∀ l ∈ before.getLast?,
        needsProduct l '(' = false := by
  unfold frontText productMark
  split
  · exact .inl ⟨_, rfl⟩
  · rename_i hnone
    refine .inr ⟨List.append_nil _, ?_⟩
    rintro l hl
    rw [hl] at hnone
    exact Bool.eq_false_iff.2 hnone

theorem mem_of_canonicalMark_eq {c : Char} (h : canonicalMark c = '/' ∨ canonicalMark c = '^') :
    c ∈ ['/', ':', '^'] := by
  revert h
  unfold canonicalMark
  split
  case h_8 =>
    simp only [List.mem_cons, List.not_mem_nil, or_false]
    tauto
  all_goals simp

variable {before text after : List Char} {c : Char} {rest : List Char}

namespace StandsApart

theorem endsOperand_frontText (h : StandsApart before (c :: rest) after)
    (hc : startsOperand (canonicalMark c) = true) :
    ∀ d ∈ (frontText before).getLast?, endsOperand d = false := by
  intro d hd
  rcases frontText_cases before with ⟨front, heq⟩ | ⟨heq, hnone⟩
  · rw [heq, List.getLast?_concat] at hd
    cases hd
    decide
  · rw [heq, getLast?_writeProducts] at hd
    obtain ⟨l, hl, rfl⟩ := Option.map_eq_some_iff.1 hd
    exact (needsProduct_round_of_parted (h.left l hl c rfl) hc).2 (hnone l hl)

theorem waiting_frontText (h : StandsApart before text after) :
    ∀ d ∈ ((frontText before).rdropWhile isSignChar).getLast?, d ≠ '/' ∧ d ≠ '^' := by
  intro d hd
  rcases frontText_cases before with ⟨front, heq⟩ | ⟨heq, _⟩
  · rw [heq, List.rdropWhile_concat_neg _ _ _ (by decide), List.getLast?_concat] at hd
    cases hd
    decide
  · rw [heq, rdropWhile_writeProducts, getLast?_writeProducts] at hd
    obtain ⟨l, hl, rfl⟩ := Option.map_eq_some_iff.1 hd
    exact ⟨fun hmark => h.waiting l hl (mem_of_canonicalMark_eq (.inl hmark)),
      fun hmark => h.waiting l hl (mem_of_canonicalMark_eq (.inr hmark))⟩

theorem head?_behindText (h : StandsApart before text after) {e : Char}
    (he : text.getLast? = some e) (hends : endsOperand (canonicalMark e) = true) :
    ∀ d ∈ (behindText after).head?, startsOperand d = false ∧ d ≠ '^' := by
  intro d hd
  cases after with
  | nil => cases hd
  | cons r after =>
      have hparted := needsProduct_behind_round_of_parted (h.right e he r rfl) hends
      have hraised : r ≠ '^' := fun heq => h.raised (heq ▸ rfl)
      rw [behindText, writeProducts_cons, productMark, Option.any_some] at hd
      cases hneeds : needsProduct ')' r with
      | true =>
          rw [hneeds] at hd
          cases hd
          decide
      | false =>
          rw [hneeds] at hd
          cases hd
          refine ⟨hparted.2 hneeds, ?_⟩
          intro hmark
          rcases List.mem_cons.1 (mem_of_canonicalMark_eq (.inr hmark)) with rfl | hmem
          · cases hmark
          · rcases List.mem_cons.1 hmem with rfl | hmem
            · cases hmark
            · exact hraised (List.mem_singleton.1 hmem)

/-- Between the others a text gets the products that it would get in brackets. -/
theorem writeProducts_eq (h : StandsApart before (c :: rest) after)
    (hc : startsOperand (canonicalMark c) = true) {e : Char} (he : (c :: rest).getLast? = some e)
    (hends : endsOperand (canonicalMark e) = true) :
    writeProducts none (before ++ c :: rest ++ after) =
      frontText before ++ (writeProducts none (c :: rest) ++ behindText after) := by
  have hleft : productMark before.getLast? c = productMark before.getLast? '(' := by
    unfold productMark
    cases hlast : before.getLast? with
    | none => rfl
    | some l =>
        rw [Option.any_some, Option.any_some,
          (needsProduct_round_of_parted (h.left l hlast c rfl) hc).1]
  have hright : writeProducts (c :: rest).getLast? after = behindText after := by
    rw [he]
    cases after with
    | nil => rfl
    | cons r after =>
        rw [behindText, writeProducts_cons, writeProducts_cons (some ')'), productMark, productMark,
          Option.any_some, Option.any_some,
          (needsProduct_behind_round_of_parted (h.right e he r rfl) hends).1]
  rw [writeProducts_between, hleft, hright]
  rfl

end StandsApart

theorem writeProducts_in_brackets (before text after : List Char) :
    writeProducts none (before ++ ('(' :: text ++ [')']) ++ after) =
      frontText before ++ ('(' :: (writeProducts none text ++ ')' :: behindText after)) := by
  have hlast : ('(' :: (text ++ [')'])).getLast? = some ')' := by
    rw [← List.cons_append, List.getLast?_concat]
  have hpiece : writeProducts none ('(' :: (text ++ [')'])) =
      '(' :: writeProducts none text ++ [')'] :=
    writeProducts_bracketed text
  rw [List.cons_append, writeProducts_between, hlast, hpiece]
  simp [frontText, behindText]

/-- What cannot start an operand and is no power ends a term. -/
theorem endsTerm_tokenizeFrom (h : ∀ d ∈ text.head?, startsOperand d = false ∧ d ≠ '^') :
    EndsTerm (tokenizeFrom false text) := by
  intro t ht
  cases text with
  | nil => cases ht
  | cons d text =>
      obtain ⟨hstarts, hpow⟩ := h d rfl
      simp only [startsOperand, Bool.or_eq_false_iff] at hstarts
      obtain ⟨⟨hnumeric, hletter⟩, hopening⟩ := hstarts
      have hsource := source_ofChar false d
      rw [tokenizeFrom_of_not_isNumeric _ _ hnumeric] at ht
      cases ht
      rcases ofChar_cases false d with ⟨hkind, _⟩ | ⟨_, ht⟩ | ⟨hkind, _⟩ | ⟨o, hsign, ht⟩ | ht
      · rw [hopening] at hkind
        cases hkind
      · rw [ht]
        rfl
      · rw [hletter] at hkind
        cases hkind
      · rw [ht] at hsource ⊢
        cases o with
        | add | sub | mul | div => rfl
        | pow => exact absurd (List.cons.inj hsource).1.symm hpow
        | neg | pos => cases hsign rfl
      · rw [ht]
        rfl

theorem tokenize_between {front text behind : List Char}
    (hfront : ∀ d ∈ front.getLast?, endsOperand d = false)
    (hhead : ∃ c rest, text = c :: rest ∧ startsOperand c = true)
    (hlast : ∃ e, text.getLast? = some e ∧ endsOperand e = true)
    (hbehind : ∀ d ∈ behind.head?, startsOperand d = false) :
    tokenize (front ++ (text ++ behind)) =
        tokenize front ++ (tokenize text ++ tokenizeFrom false behind) := by
  obtain ⟨c, rest, rfl, hc⟩ := hhead
  obtain ⟨e, he, hends⟩ := hlast
  obtain ⟨more, hmore⟩ := List.getLast?_eq_some_iff.1 he
  have hnone : startsNumeric behind = false := by
    cases behind with
    | nil => rfl
    | cons d behind =>
        have hd := hbehind d rfl
        simp only [startsOperand, Bool.or_eq_false_iff] at hd
        exact hd.1.1
  have hjoin : ∀ d ∈ front.getLast?, isNumeric d = true →
      startsNumeric (c :: rest ++ behind) = false := by
    intro d hd hnumeric
    have := hfront d hd
    simp [endsOperand, hnumeric] at this
  have hsign : signAfter (signAfter true front) (c :: rest) = false := by
    rw [hmore, signAfter_of_endsOperand hends]
  unfold tokenize
  rw [tokenizeFrom_append true hjoin, tokenizeFrom_append _ fun _ _ _ => hnone, hsign,
    tokenizeFrom_of_startsOperand hc rest _ true]

theorem tokenize_in_brackets (front text behind : List Char) :
    tokenize (front ++ ('(' :: (text ++ ')' :: behind))) =
      tokenize front ++ (.opening '(' :: tokenize text ++ [.closing ')'] ++
          tokenizeFrom false behind) := by
  have hnone : startsNumeric ('(' :: (text ++ ')' :: behind)) = false := rfl
  unfold tokenize
  rw [tokenizeFrom_append true fun _ _ _ => hnone, tokenizeFrom_bracketed]
  simp [tokenize]

/-- In brackets a text is split into tokens of its own, up to the spelling of numbers. -/
theorem alikeRows_in_brackets (before text after : List Char) :
    AlikeRows (tokenize (canonicalForm (before ++ ('(' :: text ++ [')']) ++ after)))
      (tokenize (frontText before) ++
        (.opening '(' :: tokenize (canonicalForm text) ++ [.closing ')'] ++
        tokenizeFrom false (behindText after))) := by
  -- the spelling of numbers is settled part by part
  have halike : AlikeRows (tokenize (writeProducts none text)) (tokenize (canonicalForm text)) :=
    (alikeRows_canonicalForm text).symm
  apply (alikeRows_canonicalForm _).trans
  rw [writeProducts_in_brackets, tokenize_in_brackets]
  exact (((halike.append_left [.opening '(']).append (.refl _)).append (.refl _)).append_left _

/-- **Tokens.** A term that stands apart between two others is split into the same tokens without
brackets; products and signs are all that waits for it, and it is over where the other text
begins. -/
theorem StandsApart.alikeRows (h : StandsApart before text after) {e : Expr}
    (hterm : WritesAs .term (canonicalForm text) e)
    (hhead : ∀ c ∈ text.head?, isSignChar c = false) :
    AlikeRows (tokenize (canonicalForm (before ++ text ++ after)))
        (tokenize (frontText before) ++
          (tokenize (canonicalForm text) ++ tokenizeFrom false (behindText after))) ∧
      EndsLoose (tokenize (frontText before)) ∧
      EndsTerm (tokenizeFrom false (behindText after)) := by
  obtain ⟨l, hlast, hends⟩ := hterm.exists_endsOperand
  cases text with
  | nil => cases hlast
  | cons c rest =>
      have hstarts : startsOperand (canonicalMark c) = true := by
        rcases hterm.startsOperand_or_sign with hstarts | rfl | rfl
        · exact hstarts
        · cases hhead '+' rfl
        · cases hhead '-' rfl
      have hfront := h.endsOperand_frontText hstarts
      have hbehind := h.head?_behindText hlast hends
      have hmarks : writeProducts none (c :: rest) =
          canonicalMark c :: writeProducts (some c) rest := rfl
      have hlast' : (writeProducts none (c :: rest)).getLast? = some (canonicalMark l) := by
        rw [getLast?_writeProducts, hlast]
        rfl
      have halike : AlikeRows (tokenize (writeProducts none (c :: rest)))
          (tokenize (canonicalForm (c :: rest))) :=
        (alikeRows_canonicalForm (c :: rest)).symm
      refine ⟨?_, endsLoose_tokenize hfront h.waiting_frontText, endsTerm_tokenizeFrom hbehind⟩
      apply (alikeRows_canonicalForm _).trans
      rw [h.writeProducts_eq hstarts hlast hends, tokenize_between hfront ⟨_, _, hmarks, hstarts⟩
        ⟨_, hlast', hends⟩ fun d hd => (hbehind d hd).1]
      exact (halike.append (.refl _)).append_left _

open Exact

/-! ## §4  Formal values -/

section

variable {K : Type} [Field K] [LinearOrder K] [FloorRing K]

/-- **Expressions.** Brackets around a term that stands apart make no difference to the formal value
of a text. -/
theorem StandsApart.formalValue_eq (h : StandsApart before text after) {e : Expr}
    (hterm : WritesAs .term (canonicalForm text) e) (hhead : ∀ c ∈ text.head?, isSignChar c = false)
    (cap : ℕ) :
    formalValue (K := K) cap (tokenize (canonicalForm (before ++ text ++ after))) =
      formalValue cap (tokenize (canonicalForm (before ++ ('(' :: text ++ [')']) ++ after))) := by
  obtain ⟨hbare, hfront, hbehind⟩ := h.alikeRows hterm hhead
  obtain ⟨row, hrow, htext⟩ := hterm
  have htokens : tokenize (canonicalForm text) = row := by
    rw [← htext]
    exact tokenize_of_derives hrow
  rw [hbare.formalValue_eq, (alikeRows_in_brackets before text after).formalValue_eq, htokens]
  exact formalValue_bracketed cap hfront hrow hbehind

/-! ## §5  Equations -/

/-- The formal difference of the sides of an equation; a side that is missing is `0`. -/
noncomputable def formalEquation (cap : ℕ) (text : List Char) : Except Unit K[X] :=
  formalDifference cap (splitEquation text).1 ((splitEquation text).2.getD ['0'])

theorem agrees_equationPolynomial [IsStrictOrderedRing K] (cap : UInt32) (text : List Char) :
    Agrees (equationPolynomial (α := K) cap text) (formalEquation cap.toNat text) := by
  rw [equationPolynomial_eq_sidesDifference]
  refine (agrees_ofExpression cap _).bind fun hleft => ?_
  exact (agrees_ofExpression cap _).bind fun hright => .ok (hleft.minus hright)

end

/-- Only an `=` becomes an `=`. -/
theorem equals_mem_of_mem_canonicalForm (h : '=' ∈ canonicalForm text) : '=' ∈ text := by
  rcases mem_stripZerosFrom h with heq | hmarked
  · cases heq
  · rcases mem_writeProducts hmarked with heq | ⟨d, hd, hmark⟩
    · cases heq
    · have heq : d = '=' := by
        revert hmark
        unfold canonicalMark
        split <;> simp
      exact heq ▸ hd

theorem exists_canonicalForm_equals (left : List Char) : ∃ s : ZeroState, s.PastMark ∧ ∀ right,
    canonicalForm (left ++ '=' :: right) =
      canonicalForm left ++ '=' :: stripZerosFrom s (writeProducts none right) :=
  exists_canonicalForm_mark (by decide) (by decide) (by decide) rfl (by decide) left

theorem equals_mem_canonicalForm (h : '=' ∈ text) : '=' ∈ canonicalForm text := by
  obtain ⟨left, right, rfl⟩ := List.append_of_mem h
  obtain ⟨s, _, hsplit⟩ := exists_canonicalForm_equals left
  rw [hsplit]
  exact List.mem_append_right _ List.mem_cons_self

theorem WritesAs.equals_not_mem {e : Expr} (h : WritesAs .term (canonicalForm text) e) :
    '=' ∉ text := by
  intro hmem
  exact equals_not_mem_of_parsed (infixToPostfix_of_writes h.expr_of_term)
    (equals_mem_canonicalForm hmem)

section

variable {K : Type} [Field K] [LinearOrder K] [FloorRing K]

/-- The sides of an equation can be brought into canonical form each for itself. -/
theorem formalEquation_sides {left : List Char} (h : '=' ∉ left) (right : List Char) (cap : ℕ) :
    formalEquation (K := K) cap (canonicalForm (left ++ '=' :: right)) =
      formalDifference cap (canonicalForm left) (canonicalForm right) := by
  obtain ⟨s, hs, hsplit⟩ := exists_canonicalForm_equals left
  have hleft : '=' ∉ canonicalForm left := fun hmem => h (equals_mem_of_mem_canonicalForm hmem)
  have hheld : s.held = [] := by
    rcases hs with rfl | rfl <;> rfl
  have hright : AlikeRows (tokenize (stripZerosFrom s (writeProducts none right)))
      (tokenize (canonicalForm right)) := by
    have hzeros := alikeRows_stripZerosFrom s (writeProducts none right) true
    rw [hheld] at hzeros
    exact hzeros.trans (alikeRows_canonicalForm right).symm
  rw [hsplit, formalEquation, splitEquation_append_cons hleft, Option.getD_some, formalDifference,
    hright.formalValue_eq, ← formalDifference]

theorem formalEquation_of_not_mem (h : '=' ∉ text) (cap : ℕ) :
    formalEquation (K := K) cap text = formalDifference cap text ['0'] := by
  rw [formalEquation, splitEquation_of_not_mem h, Option.getD_none]

end

namespace StandsApart

/-- What stands in front of an `=` does not matter to what stands behind. -/
theorem of_suffix {left : List Char} (h : StandsApart (left ++ '=' :: before) text after) :
    StandsApart before text after where
  left l hl := h.left l (by rw [List.getLast?_append, List.getLast?_cons, hl]; rfl)
  right := h.right
  waiting c hc := by
    apply h.waiting
    have hdrop : (before.reverse.dropWhile isSignChar).head? = some c := by
      rw [← List.getLast?_reverse]
      exact hc
    obtain ⟨rest, hrest⟩ := List.head?_eq_some_iff.1 hdrop
    show c ∈ (((left ++ '=' :: before).reverse.dropWhile isSignChar).reverse).getLast?
    rw [List.getLast?_reverse, List.reverse_append, List.reverse_cons, List.append_assoc,
      List.dropWhile_append, hrest]
    rfl
  raised := h.raised

theorem of_prefix {right : List Char} (h : StandsApart before text (after ++ '=' :: right)) :
    StandsApart before text after where
  left := h.left
  right e he r hr := h.right e he r (by rw [List.head?_append, hr]; rfl)
  waiting := h.waiting
  raised hmem := h.raised (by rw [List.head?_append, hmem]; rfl)

/-- **Equations.** Brackets around a term that stands apart make no difference to the formal
difference of the sides of an equation, on whichever side of it the term stands. -/
theorem formalEquation_eq {K : Type} [Field K] [LinearOrder K] [FloorRing K]
    (h : StandsApart before text after) {e : Expr} (hterm : WritesAs .term (canonicalForm text) e)
    (hhead : ∀ c ∈ text.head?, isSignChar c = false) (cap : ℕ) :
    formalEquation (K := K) cap (canonicalForm (before ++ text ++ after)) =
      formalEquation cap (canonicalForm (before ++ ('(' :: text ++ [')']) ++ after)) := by
  have htext : '=' ∉ text := hterm.equals_not_mem
  have hbracketed : '=' ∉ '(' :: text ++ [')'] := by simp [htext]
  by_cases hbefore : '=' ∈ before
  · obtain ⟨left, rest, rfl, hleft⟩ := List.eq_append_cons_of_mem hbefore
    have hsplit : ∀ piece,
        left ++ '=' :: rest ++ piece ++ after = left ++ '=' :: (rest ++ piece ++ after) := by
      intro piece
      simp
    rw [hsplit, hsplit, formalEquation_sides hleft, formalEquation_sides hleft, formalDifference,
      formalDifference, h.of_suffix.formalValue_eq hterm hhead]
  · by_cases hafter : '=' ∈ after
    · obtain ⟨rest, right, rfl, hrest⟩ := List.eq_append_cons_of_mem hafter
      have hsplit : ∀ piece,
          before ++ piece ++ (rest ++ '=' :: right) = before ++ piece ++ rest ++ '=' :: right := by
        intro piece
        simp
      have hleft : ∀ piece, '=' ∉ piece → '=' ∉ before ++ piece ++ rest := by
        intro piece hpiece
        simp [hbefore, hpiece, hrest]
      rw [hsplit, hsplit, formalEquation_sides (hleft _ htext),
        formalEquation_sides (hleft _ hbracketed), formalDifference, formalDifference,
        h.of_prefix.formalValue_eq hterm hhead]
    · have hwhole : ∀ piece, '=' ∉ piece → '=' ∉ canonicalForm (before ++ piece ++ after) := by
        intro piece hpiece hmem
        have := equals_mem_of_mem_canonicalForm hmem
        simp [hbefore, hpiece, hafter] at this
      rw [formalEquation_of_not_mem (hwhole _ htext),
        formalEquation_of_not_mem (hwhole _ hbracketed), formalDifference, formalDifference,
        h.formalValue_eq hterm hhead]

end StandsApart

/-! ## §6  Other letters -/

section

variable {f : Char → Char}

theorem Relabels.isNumeric_apply (hf : Relabels f) (c : Char) : isNumeric (f c) = isNumeric c := by
  have hpoint : f c = '.' ↔ c = '.' := hf.apply_eq_iff (by decide)
  simp only [isNumeric, (hf.classes c).1, hpoint]

theorem Relabels.parted_apply (hf : Relabels f) (a b : Char) : parted (f a) (f b) = parted a b := by
  obtain ⟨_, hletter, _, hclosing⟩ := hf.classes (canonicalMark a)
  obtain ⟨_, hletter', hopening', _⟩ := hf.classes (canonicalMark b)
  simp only [parted, endsOperand, startsOperand, hf.needsProduct_apply, hf.canonicalMark_apply,
    hf.isNumeric_apply, hletter, hclosing, hletter', hopening']

theorem Relabels.isSignChar_apply (hf : Relabels f) (c : Char) :
    isSignChar (f c) = isSignChar c := by
  have hplus : f c = '+' ↔ c = '+' := hf.apply_eq_iff (by decide)
  have hminus : f c = '-' ↔ c = '-' := hf.apply_eq_iff (by decide)
  simp only [isSignChar, hplus, hminus]

theorem StandsApart.map (hf : Relabels f) (h : StandsApart before text after) :
    StandsApart (before.map f) (text.map f) (after.map f) where
  left l hl c hc := by
    rw [List.getLast?_map] at hl
    rw [List.head?_map] at hc
    obtain ⟨a, ha, rfl⟩ := Option.map_eq_some_iff.1 hl
    obtain ⟨b, hb, rfl⟩ := Option.map_eq_some_iff.1 hc
    rw [hf.parted_apply]
    exact h.left a ha b hb
  right e he r hr := by
    rw [List.getLast?_map] at he
    rw [List.head?_map] at hr
    obtain ⟨a, ha, rfl⟩ := Option.map_eq_some_iff.1 he
    obtain ⟨b, hb, rfl⟩ := Option.map_eq_some_iff.1 hr
    rw [hf.parted_apply]
    exact h.right a ha b hb
  waiting c hc := by
    have hdrop : (before.map f).rdropWhile isSignChar = (before.rdropWhile isSignChar).map f := by
      have hsame : isSignChar ∘ f = isSignChar := funext hf.isSignChar_apply
      rw [List.rdropWhile, List.rdropWhile, ← List.map_reverse, List.dropWhile_map,
        hsame, List.map_reverse]
    rw [hdrop, List.getLast?_map] at hc
    obtain ⟨d, hd, rfl⟩ := Option.map_eq_some_iff.1 hc
    have hnot := h.waiting d hd
    have hslash : f d = '/' ↔ d = '/' := hf.apply_eq_iff (by decide)
    have hcolon : f d = ':' ↔ d = ':' := hf.apply_eq_iff (by decide)
    have hpow : f d = '^' ↔ d = '^' := hf.apply_eq_iff (by decide)
    simpa [hslash, hcolon, hpow] using hnot
  raised hmem := by
    rw [List.head?_map] at hmem
    obtain ⟨c, hc, heq⟩ := Option.map_eq_some_iff.1 hmem
    exact h.raised (hf.eq_of_apply_eq (by decide) heq ▸ hc)

/-- A phrase with other letters is a phrase. -/
theorem Derives.exists_relabelled (hf : Relabels f) {p : Phrase} {row : List Token} {e : Expr}
    (h : Derives p row e) :
    ∃ e', Derives p (row.map (Token.relabel f)) e' := by
  induction h with
  | ofTerm _ ih =>
      obtain ⟨e, he⟩ := ih
      exact ⟨e, .ofTerm he⟩
  | ofUnary _ ih =>
      obtain ⟨e, he⟩ := ih
      exact ⟨e, .ofUnary he⟩
  | ofPower _ ih =>
      obtain ⟨e, he⟩ := ih
      exact ⟨e, .ofPower he⟩
  | ofAtom _ ih =>
      obtain ⟨e, he⟩ := ih
      exact ⟨e, .ofAtom he⟩
  | sum _ ho _ ihLeft ihRight =>
      obtain ⟨a, ha⟩ := ihLeft
      obtain ⟨b, hb⟩ := ihRight
      rw [List.map_append]
      exact ⟨_, .sum ha ho hb⟩
  | product _ ho _ ihLeft ihRight =>
      obtain ⟨a, ha⟩ := ihLeft
      obtain ⟨b, hb⟩ := ihRight
      rw [List.map_append]
      exact ⟨_, .product ha ho hb⟩
  | power _ _ ihLeft ihRight =>
      obtain ⟨a, ha⟩ := ihLeft
      obtain ⟨b, hb⟩ := ihRight
      rw [List.map_append]
      exact ⟨_, .power ha hb⟩
  | sign s _ ih =>
      obtain ⟨a, ha⟩ := ih
      exact ⟨_, .sign s ha⟩
  | number hne hnumeric => exact ⟨_, .number hne hnumeric⟩
  | @letter c hc => exact ⟨_, .letter ((hf.isLetter_apply c).trans hc)⟩
  | bracket hpair _ ih =>
      obtain ⟨e, he⟩ := ih
      rw [List.map_append]
      exact ⟨e, .bracket hpair he⟩

theorem WritesAs.exists_map (hf : Relabels f) {p : Phrase} {text : List Char} {e : Expr}
    (h : WritesAs p text e) :
    ∃ e', WritesAs p (text.map f) e' := by
  obtain ⟨row, hrow, rfl⟩ := h
  obtain ⟨e', he'⟩ := hrow.exists_relabelled hf
  refine ⟨e', _, he', ?_⟩
  have hsource := flatMap_source_tokenizeFrom true ((row.flatMap Token.source).map f)
  have hrow' : tokenizeFrom true (row.flatMap Token.source) = row := tokenize_of_derives hrow
  rwa [tokenizeFrom_relabelled hf, hrow'] at hsource

/-- **Equations in any unknown.** An equation is solved with `x` for its unknown; brackets around a
term that stands apart make no difference then either. -/
theorem StandsApart.formalEquation_map (hf : Relabels f) {K : Type} [Field K] [LinearOrder K]
    [FloorRing K] (h : StandsApart before text after) {e : Expr}
    (hterm : WritesAs .term (canonicalForm text) e) (hhead : ∀ c ∈ text.head?, isSignChar c = false)
    (cap : ℕ) :
    formalEquation (K := K) cap ((canonicalForm (before ++ text ++ after)).map f) =
      formalEquation cap ((canonicalForm (before ++ ('(' :: text ++ [')']) ++ after)).map f) := by
  obtain ⟨e', hterm'⟩ := hterm.exists_map hf
  rw [← hf.canonicalForm_map] at hterm'
  have hhead' : ∀ c ∈ (text.map f).head?, isSignChar c = false := by
    intro c hc
    rw [List.head?_map] at hc
    obtain ⟨d, hd, rfl⟩ := Option.map_eq_some_iff.1 hc
    rw [hf.isSignChar_apply]
    exact hhead d hd
  have hopening : f '(' = '(' := hf.eq_self (by decide)
  have hclosing : f ')' = ')' := hf.eq_self (by decide)
  have hsame := (h.map hf).formalEquation_eq (K := K) hterm' hhead' cap
  rw [← hf.canonicalForm_map, ← hf.canonicalForm_map]
  simpa [hopening, hclosing] using hsame

end

end InkAlgebra

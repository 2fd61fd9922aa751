import Mathlib
import InkAlgebra.Proofs.Expression.Composition
import InkAlgebra.Proofs.Expression.Phrases

/-!
# Texts side by side

What becomes of a text that stands between two others: which products are written at its ends,
whether its tokens are its own, and how a phrase of the grammar begins and ends.

All that reaches across is one character on the left. It decides on the product, on whether a number
goes on, and on whether a `+` or `-` is a sign.

§1 is products, §2 tokens, §3 the ends of phrases, §4 the ends of texts that are brought into
canonical form.
-/

namespace InkAlgebra

/-! ## §1  Products -/

/-- The `*` that is written in front of a character. -/
def productMark (prev : Option Char) (c : Char) : List Char :=
  if prev.any (needsProduct · c) then ['*'] else []

theorem writeProducts_cons (prev : Option Char) (c : Char) (rest : List Char) :
    writeProducts prev (c :: rest) = productMark prev c ++ writeProducts none (c :: rest) := by
  unfold productMark
  rw [writeProducts]
  split <;> rfl

theorem writeProducts_append (prev : Option Char) (front back : List Char) :
    writeProducts prev (front ++ back) =
      writeProducts prev front ++ writeProducts (front.getLast?.or prev) back := by
  induction front generalizing prev with
  | nil => rfl
  | cons c front ih =>
      have hlast : (c :: front).getLast?.or prev = front.getLast?.or (some c) := by
        rw [List.getLast?_cons]
        cases front.getLast? <;> rfl
      rw [List.cons_append, writeProducts, writeProducts, ih, hlast]
      split <;> rfl

/-- A text between two others. -/
theorem writeProducts_between (before : List Char) (c : Char) (text after : List Char) :
    writeProducts none (before ++ c :: text ++ after) =
      writeProducts none before ++ productMark before.getLast? c ++
        (writeProducts none (c :: text) ++ writeProducts (c :: text).getLast? after) := by
  rw [List.append_assoc, writeProducts_append, Option.or_none, List.cons_append, writeProducts_cons,
    ← List.cons_append, writeProducts_append, Option.or_none]
  simp only [List.append_assoc]

theorem writeProducts_concat (front : List Char) (c : Char) :
    writeProducts none (front ++ [c]) =
      writeProducts none front ++ productMark front.getLast? c ++ [canonicalMark c] := by
  simpa [writeProducts] using writeProducts_between front c [] []

theorem getLast?_writeProducts (text : List Char) :
    (writeProducts none text).getLast? = text.getLast?.map canonicalMark := by
  rcases List.eq_nil_or_concat text with rfl | ⟨front, c, rfl⟩
  · rfl
  · rw [List.concat_eq_append, writeProducts_concat, List.getLast?_concat, List.getLast?_concat]
    rfl

/-! ## §2  Tokens -/

/-- Whether a `+` or `-` behind a text is a sign. -/
def signAfter (signExpected : Bool) (text : List Char) : Bool :=
  text.foldl (fun s c => !isNumeric c && (Token.ofChar s c).invitesSign) signExpected

theorem consNumeric_append (c : Char) {row : List Token} (h : row ≠ []) (behind : List Token) :
    Token.consNumeric c (row ++ behind) = Token.consNumeric c row ++ behind := by
  obtain ⟨t, rest, rfl⟩ := List.exists_cons_of_ne_nil h
  cases t <;> rfl

theorem tokenizeFrom_ne_nil (signExpected : Bool) (c : Char) (rest : List Char) :
    tokenizeFrom signExpected (c :: rest) ≠ [] := by
  intro hnil
  have hsource := flatMap_source_tokenizeFrom signExpected (c :: rest)
  rw [hnil] at hsource
  cases hsource

/-- **Joined texts** are split one after the other, unless a number goes on from the first into the
second. -/
theorem tokenizeFrom_append (signExpected : Bool) {front back : List Char}
    (hjoin : ∀ c ∈ front.getLast?, isNumeric c = true → startsNumeric back = false) :
    tokenizeFrom signExpected (front ++ back) =
      tokenizeFrom signExpected front ++ tokenizeFrom (signAfter signExpected front) back := by
  induction front generalizing signExpected with
  | nil => rfl
  | cons c front ih =>
      have hsign : signAfter signExpected (c :: front) =
          signAfter (!isNumeric c && (Token.ofChar signExpected c).invitesSign) front := rfl
      rw [List.cons_append, hsign]
      cases hc : isNumeric c with
      | true =>
          rw [tokenizeFrom_of_isNumeric _ _ hc, tokenizeFrom_of_isNumeric _ _ hc]
          cases front with
          | nil => exact consNumeric_tokenizeFrom c (hjoin c rfl hc)
          | cons d front =>
              rw [ih false hjoin]
              exact consNumeric_append c (tokenizeFrom_ne_nil false d front) _
      | false =>
          have hrest : ∀ d ∈ front.getLast?, isNumeric d = true → startsNumeric back = false := by
            intro d hd
            apply hjoin
            rw [List.getLast?_cons, hd]
            rfl
          rw [tokenizeFrom_of_not_isNumeric _ _ hc,
            tokenizeFrom_of_not_isNumeric _ _ hc, ih _ hrest]
          rfl

/-- Behind an operand no sign is read. -/
theorem invitesSign_ofChar {c : Char} (h : isLetter c = true ∨ isClosingChar c = true)
    (signExpected : Bool) :
    (Token.ofChar signExpected c).invitesSign = false := by
  unfold Token.ofChar
  split_ifs with hopening hclosing hletter hsign
  · -- no opening bracket is a letter or closes
    simp only [Bool.or_eq_true, decide_eq_true_eq] at hopening
    rcases hopening with (rfl | rfl) | rfl <;> revert h <;> decide
  · rfl
  · rfl
  all_goals exact absurd h (not_or.2 ⟨hletter, hclosing⟩)

theorem signAfter_concat (signExpected : Bool) (front : List Char) (c : Char) :
    signAfter signExpected (front ++ [c]) =
      (!isNumeric c && (Token.ofChar (signAfter signExpected front) c).invitesSign) := by
  simp [signAfter, List.foldl_append]

theorem signAfter_of_endsOperand {c : Char} (h : endsOperand c = true) (signExpected : Bool)
    (front : List Char) :
    signAfter signExpected (front ++ [c]) = false := by
  rw [signAfter_concat]
  cases hc : isNumeric c with
  | true => rfl
  | false =>
      have hkind : isLetter c = true ∨ isClosingChar c = true := by simpa [endsOperand, hc] using h
      rw [invitesSign_ofChar hkind]
      rfl

/-- Where an operand starts it does not matter whether a sign could stand there. -/
theorem tokenizeFrom_of_startsOperand {c : Char} (h : startsOperand c = true) (rest : List Char)
    (s t : Bool) :
    tokenizeFrom s (c :: rest) = tokenizeFrom t (c :: rest) := by
  cases hc : isNumeric c with
  | true => rw [tokenizeFrom_of_isNumeric _ _ hc, tokenizeFrom_of_isNumeric _ _ hc]
  | false =>
      have hkind : isLetter c = true ∨ isOpeningChar c = true := by
        simpa [startsOperand, hc] using h
      have hsame : Token.ofChar s c = Token.ofChar t c := by
        rcases hkind with hletter | hopening
        · rw [ofChar_of_isLetter s hletter, ofChar_of_isLetter t hletter]
        · have hround : (decide (c = '(') || decide (c = '[') || decide (c = '\x7b')) = true :=
            hopening
          unfold Token.ofChar
          rw [if_pos hround, if_pos hround]
      rw [tokenizeFrom_of_not_isNumeric _ _ hc, tokenizeFrom_of_not_isNumeric _ _ hc, hsame]

/-! ## §3  The ends of phrases -/

/-- A phrase starts with an operand or a sign. -/
theorem Derives.exists_head {p : Phrase} {row : List Token} {e : Expr} (h : Derives p row e) :
    ∃ c rest, row.flatMap Token.source = c :: rest ∧
        (startsOperand c = true ∨ c = '+' ∨ c = '-') := by
  induction h with
  | ofTerm _ ih | ofUnary _ ih | ofPower _ ih | ofAtom _ ih => exact ih
  | sum _ _ _ ih _ | product _ _ _ ih _ | power _ _ ih _ =>
      obtain ⟨c, rest, heq, hc⟩ := ih
      exact ⟨c, _, by rw [List.flatMap_append, heq, List.cons_append], hc⟩
  | sign s _ _ =>
      cases s with
      | plus => exact ⟨'+', _, rfl, .inr (.inl rfl)⟩
      | minus => exact ⟨'-', _, rfl, .inr (.inr rfl)⟩
  | @number text hne hnumeric =>
      obtain ⟨c, rest, rfl⟩ := List.exists_cons_of_ne_nil hne
      refine ⟨c, rest, List.append_nil _, .inl ?_⟩
      simp [startsOperand, hnumeric c List.mem_cons_self]
  | @letter c hc => exact ⟨c, [], rfl, .inl (by simp [startsOperand, hc])⟩
  | @bracket _ _ o c hpair _ _ =>
      refine ⟨o, _, rfl, .inl ?_⟩
      rcases mem_bracketPairs.1 hpair with ⟨rfl, _⟩ | ⟨rfl, _⟩ | ⟨rfl, _⟩ <;> decide

/-- A phrase ends with an operand. -/
theorem Derives.exists_last {p : Phrase} {row : List Token} {e : Expr} (h : Derives p row e) :
    ∃ c, (row.flatMap Token.source).getLast? = some c ∧ endsOperand c = true := by
  -- the end of a phrase is that of the last phrase in it
  have hbehind : ∀ (front : List Token) {back : List Token} {c : Char},
      (back.flatMap Token.source).getLast? = some c →
          ((front ++ back).flatMap Token.source).getLast? = some c := by
    intro front back c hc
    rw [List.flatMap_append, List.getLast?_append, hc]
    rfl
  induction h with
  | ofTerm _ ih | ofUnary _ ih | ofPower _ ih | ofAtom _ ih => exact ih
  | @sum left right _ _ o _ _ _ _ ih | @product left right _ _ o _ _ _ _ ih =>
      obtain ⟨c, hlast, hc⟩ := ih
      exact ⟨c, hbehind left (hbehind [.op o.op] hlast), hc⟩
  | @power left _ _ _ _ _ _ ih =>
      obtain ⟨c, hlast, hc⟩ := ih
      exact ⟨c, hbehind left (hbehind [.op Operation.pow.op] hlast), hc⟩
  | sign s _ ih =>
      obtain ⟨c, hlast, hc⟩ := ih
      exact ⟨c, hbehind [.op s.op] hlast, hc⟩
  | @number text hne hnumeric =>
      obtain ⟨front, c, rfl⟩ := (List.eq_nil_or_concat text).resolve_left hne
      refine ⟨c, ?_, ?_⟩
      · simp [Token.source, Token.name]
      · simp [endsOperand, hnumeric c (by simp)]
  | @letter c hc => exact ⟨c, rfl, by simp [endsOperand, hc]⟩
  | @bracket row _ o c hpair _ _ =>
      refine ⟨c, hbehind (.opening o :: row) rfl, ?_⟩
      rcases mem_bracketPairs.1 hpair with ⟨_, rfl⟩ | ⟨_, rfl⟩ | ⟨_, rfl⟩ <;> decide

/-! ## §4  The ends of canonical forms -/

theorem getLast?_stripZerosFrom (s : ZeroState) (c : Char) (rest : List Char) :
    (stripZerosFrom s (c :: rest)).getLast? = (c :: rest).getLast? := by
  induction rest generalizing s c with
  | nil =>
      have hend : stripZerosFrom (.after c) [] = [] := by
        unfold ZeroState.after
        split_ifs <;> rfl
      cases s with
      | kept => rw [stripZerosFrom, hend]
      | behindPoint =>
          rw [stripZerosFrom]
          split_ifs <;> rfl
      | outside =>
          rw [stripZerosFrom, hend]
          split
          · rename_i hc
            rw [hc]
            rfl
          · rfl
      | leading =>
          rw [stripZerosFrom, hend]
          split_ifs with hc hdigit
          · rw [hc]
            rfl
          · rfl
          · rfl
  | cons d rest ih =>
      -- what is written in front is not the end
      have hwritten : ∀ t x, (x :: stripZerosFrom t (d :: rest)).getLast? =
          (c :: d :: rest).getLast? := by
        intro t x
        rw [List.getLast?_cons, ih, List.getLast?_cons_cons, List.getLast?_cons]
        rfl
      cases s with
      | kept => exact hwritten _ c
      | behindPoint => exact hwritten _ c
      | outside =>
          rw [stripZerosFrom]
          split
          · rw [ih, List.getLast?_cons_cons]
          · exact hwritten _ c
      | leading =>
          rw [stripZerosFrom]
          split_ifs
          · rw [ih, List.getLast?_cons_cons]
          · exact hwritten _ c
          · rw [List.getLast?_cons_cons]
            exact hwritten _ c

/-- The end of a canonical form is the mark of the last character. -/
theorem getLast?_canonicalForm (text : List Char) :
    (canonicalForm text).getLast? = text.getLast?.map canonicalMark := by
  rw [← getLast?_writeProducts]
  unfold canonicalForm stripLeadingZeros
  cases writeProducts none text with
  | nil => rfl
  | cons c rest => exact getLast?_stripZerosFrom .outside c rest

/-- The start of a canonical form is the mark of the first character, unless that is a zero. -/
theorem head?_canonicalForm {c : Char} (h : c ≠ '0') (rest : List Char) :
    (canonicalForm (c :: rest)).head? = some (canonicalMark c) := by
  have hmark : canonicalMark c ≠ '0' := by
    unfold canonicalMark
    split <;> first | decide | exact h
  show (if canonicalMark c = '0' then _ else _ : List Char).head? = _
  rw [if_neg hmark]
  rfl

/-- What is a phrase in canonical form starts with an operand or a sign. -/
theorem WritesAs.startsOperand_or_sign {p : Phrase} {c : Char} {rest : List Char} {e : Expr}
    (h : WritesAs p (canonicalForm (c :: rest)) e) :
    startsOperand (canonicalMark c) = true ∨ c = '+' ∨ c = '-' := by
  by_cases hzero : c = '0'
  · subst hzero
    exact .inl (by decide)
  · obtain ⟨row, hrow, htext⟩ := h
    obtain ⟨d, more, heq, hd⟩ := hrow.exists_head
    have hhead := head?_canonicalForm hzero rest
    rw [← htext, heq] at hhead
    obtain rfl : d = canonicalMark c := Option.some.inj hhead
    rcases hd with hd | hd
    · exact .inl hd
    · right
      revert hd
      unfold canonicalMark
      split <;> simp

/-- What is a phrase in canonical form ends with an operand. -/
theorem WritesAs.exists_endsOperand {p : Phrase} {text : List Char} {e : Expr}
    (h : WritesAs p (canonicalForm text) e) :
    ∃ c, text.getLast? = some c ∧ endsOperand (canonicalMark c) = true := by
  obtain ⟨row, hrow, htext⟩ := h
  obtain ⟨d, hlast, hd⟩ := hrow.exists_last
  rw [htext, getLast?_canonicalForm] at hlast
  obtain ⟨c, hc, rfl⟩ := Option.map_eq_some_iff.1 hlast
  exact ⟨c, hc, hd⟩

end InkAlgebra

import Mathlib
import InkAlgebra.Proofs.Expression.Adjacency
import InkAlgebra.Proofs.Expression.Phrases

/-!
# Dropping zeros, token by token

Zeros are dropped character by character, from a text that has not been split into tokens yet, and
with another idea of a number than the splitting has: there a number is a run of digits and points,
here a run of digits that no point precedes. For every text the two agree well enough. The tokens
are the same ones before and after, except that a number may have lost zeros at its front, in front
of a digit; so no number is lost, split or joined with another, and what a number says stays the
same.

§1 is what happens to one token, §2 to the rows of texts that differ by a zero or in what follows a
character, §3 to a whole text.
-/

namespace InkAlgebra

/-! ## §1  Tokens -/

/-- Whether a token stays, or is a number that loses zeros in front of its first other digit. -/
inductive Token.Trims : Token → Token → Prop
  | same (t : Token) : Trims t t
  | front (m : ℕ) {d : Char} (more : List Char) : d.isDigit = true →
      Trims (.number (List.replicate m '0' ++ d :: more)) (.number (d :: more))

theorem Token.Trims.trans {s t u : Token} (h : s.Trims t) (h' : t.Trims u) : s.Trims u := by
  cases h with
  | same => exact h'
  | front m more hd =>
      generalize ht : Token.number _ = t at h'
      cases h' with
      | same =>
          subst ht
          exact .front m more hd
      | front n more' hd' =>
          rw [Token.number.inj ht, ← List.append_assoc, List.replicate_append_replicate]
          exact .front (m + n) more' hd'

theorem Token.Trims.isProper {t t' : Token} (h : t.Trims t') (ht : t.IsProper) : t'.IsProper := by
  cases h with
  | same => exact ht
  | front m more hd => exact ⟨List.cons_ne_nil _ _, fun c hc => ht.2 c (List.mem_append_right _ hc)⟩

theorem Token.Trims.decimal?_eq {text text' : List Char}
    (h : (Token.number text).Trims (.number text')) :
    decimal? text' = decimal? text := by
  cases h with
  | same => rfl
  | front m more hd => exact (decimal?_zeros (by simp [hd]) m).symm

/-- Whether two rows are the same up to zeros at the front of numbers, which the second one
lacks. -/
def TrimmedRows (row row' : List Token) : Prop := List.Forall₂ Token.Trims row row'

namespace TrimmedRows

variable {row row' row'' : List Token}

theorem refl (row : List Token) : TrimmedRows row row := List.forall₂_same.2 fun t _ => .same t

theorem trans (h : TrimmedRows row row') (h' : TrimmedRows row' row'') : TrimmedRows row row'' := by
  induction h generalizing row'' with
  | nil => exact h'
  | cons ht _ ih =>
      cases h' with
      | cons ht' hrest => exact .cons (ht.trans ht') (ih hrest)

end TrimmedRows

/-! ## §2  Rows of texts -/

variable {signExpected : Bool}

/-- A zero in front of another digit joins its number. -/
theorem trimmedRows_zero {c : Char} (hc : c.isDigit = true) (text : List Char) :
    TrimmedRows (tokenizeFrom signExpected ('0' :: c :: text))
        (tokenizeFrom signExpected (c :: text)) := by
  have hnumeric : isNumeric c = true := isNumeric_of_isDigit hc
  obtain ⟨number, rest, hrow, hjoined⟩ := exists_consNumeric c (tokenizeFrom false text)
  have hcons : tokenizeFrom signExpected (c :: text) = .number number :: rest := by
    rw [tokenizeFrom_of_isNumeric _ _ hnumeric, hrow]
  have hzero : tokenizeFrom signExpected ('0' :: c :: text) = .number ('0' :: number) :: rest := by
    rw [tokenizeFrom_of_isNumeric _ _ (by decide), tokenizeFrom_of_isNumeric _ _ hnumeric, hjoined]
  have hproper : (Token.number number).IsProper :=
    isProper_of_mem_tokenizeFrom (hcons ▸ List.mem_cons_self)
  -- the number starts with the digit, which it keeps
  obtain ⟨d, digits, rfl⟩ := List.exists_cons_of_ne_nil hproper.1
  have hsource := flatMap_source_tokenizeFrom signExpected (c :: text)
  rw [hcons] at hsource
  obtain rfl : d = c := (List.cons.inj hsource).1
  rw [hcons, hzero]
  exact .cons (.front 1 digits hc) (TrimmedRows.refl rest)

/-- A character in front of two texts is read alike if they are, and if it is numeric, that takes a
start that is spelled the same. -/
theorem trimmedRows_cons {c : Char} {text text' : List Char}
    (h : ∀ signExpected, TrimmedRows (tokenizeFrom signExpected text)
      (tokenizeFrom signExpected text'))
    (hhead : isNumeric c = true → (tokenizeFrom false text).head? =
      (tokenizeFrom false text').head?) :
    TrimmedRows (tokenizeFrom signExpected (c :: text)) (tokenizeFrom signExpected (c :: text')) ∧
      (tokenizeFrom signExpected (c :: text)).head? =
          (tokenizeFrom signExpected (c :: text')).head? := by
  by_cases hc : isNumeric c = true
  · rw [tokenizeFrom_of_isNumeric _ _ hc, tokenizeFrom_of_isNumeric _ _ hc]
    have hrows := h false
    have hsame := hhead hc
    generalize tokenizeFrom false text = row at hrows hsame ⊢
    generalize tokenizeFrom false text' = row' at hrows hsame ⊢
    cases hrows with
    | nil => exact ⟨.refl _, rfl⟩
    | @cons t t' rest rest' _ hrest =>
        obtain rfl : t = t' := Option.some.inj hsame
        cases t with
        | number number => exact ⟨.cons (.same _) hrest, rfl⟩
        | letter _ | op _ | opening _ | closing _ | unknown _ =>
            exact ⟨.cons (.same _) (.cons (.same _) hrest), rfl⟩
  · rw [tokenizeFrom_of_not_isNumeric _ _ (Bool.eq_false_iff.2 hc),
      tokenizeFrom_of_not_isNumeric _ _ (Bool.eq_false_iff.2 hc)]
    exact ⟨.cons (.same _) (h _), rfl⟩

theorem ZeroState.after_of_isNumeric {c : Char} (hc : isNumeric c = true) :
    ZeroState.after c = .kept ∨ ZeroState.after c = .behindPoint := by
  unfold ZeroState.after
  rcases (Bool.or_eq_true ..).mp hc with hdigit | hpoint
  · exact .inl (if_pos hdigit)
  · rw [of_decide_eq_true hpoint]
    exact .inr rfl

/-! ## §3  Whole texts -/

/-- Dropping zeros trims numbers, and does nothing else. Where digits are kept, the number that is
being read is not trimmed either. -/
theorem trimmedRows_stripZerosFrom (s : ZeroState) (text : List Char) (signExpected : Bool) :
    TrimmedRows (tokenizeFrom signExpected (s.held ++ text))
      (tokenizeFrom signExpected (stripZerosFrom s text)) ∧ (s = .kept ∨ s = .behindPoint →
        (tokenizeFrom signExpected text).head? =
            (tokenizeFrom signExpected (stripZerosFrom s text)).head?) := by
  induction text generalizing s signExpected with
  | nil =>
      cases s with
      | leading => exact ⟨.refl _, by simp⟩
      | outside | kept | behindPoint => exact ⟨.refl _, fun _ => rfl⟩
  | cons c rest ih =>
      -- a character that is written, in whatever state it leaves
      have hwritten : ∀ {t : ZeroState} (signExpected : Bool), t.held = [] →
          (isNumeric c = true → t = .kept ∨ t = .behindPoint) →
          TrimmedRows (tokenizeFrom signExpected (c :: rest))
              (tokenizeFrom signExpected (c :: stripZerosFrom t rest)) ∧
            (tokenizeFrom signExpected (c :: rest)).head? =
              (tokenizeFrom signExpected (c :: stripZerosFrom t rest)).head? := by
        intro t signExpected ht hkept
        apply trimmedRows_cons
        · intro signExpected
          have h := (ih t signExpected).1
          rwa [ht] at h
        · intro hc
          exact (ih t false).2 (hkept hc)
      have hafter := fun signExpected : Bool =>
        hwritten signExpected (ZeroState.held_after c) ZeroState.after_of_isNumeric
      cases s with
      | kept =>
          rw [stripZerosFrom]
          exact ⟨(hafter signExpected).1, fun _ => (hafter signExpected).2⟩
      | behindPoint =>
          have hnext : ∀ {t : ZeroState}, t = (if c = '.' then .behindPoint else .kept) →
              t.held = [] ∧ (t = .kept ∨ t = .behindPoint) := by
            rintro t rfl
            split_ifs
            · exact ⟨rfl, .inr rfl⟩
            · exact ⟨rfl, .inl rfl⟩
          rw [stripZerosFrom]
          obtain ⟨hrows, hhead⟩ := hwritten signExpected (hnext rfl).1 fun _ => (hnext rfl).2
          exact ⟨hrows, fun _ => hhead⟩
      | outside =>
          refine ⟨?_, by simp⟩
          rw [stripZerosFrom]
          split
          · rename_i hc
            subst hc
            exact (ih .leading signExpected).1
          · exact (hafter signExpected).1
      | leading =>
          refine ⟨?_, by simp⟩
          rw [stripZerosFrom]
          split
          · rename_i hc
            subst hc
            exact (trimmedRows_zero (by decide) rest).trans (ih .leading signExpected).1
          · split
            · rename_i hdigit
              exact (trimmedRows_zero hdigit rest).trans
                (hwritten signExpected rfl fun _ => .inl rfl).1
            · apply (trimmedRows_cons _ _).1
              · intro signExpected
                exact (hafter signExpected).1
              · intro _
                exact (hafter false).2

/-- What a token has in common with the one that dropping zeros makes of it: a number stays a number
that is not empty, is read as the same one by every reader, and says the same decimal if it says
one. -/
structure Token.StaysAs (t t' : Token) : Prop where
  trims : t.Trims t'
  reads : ∀ text, t = .number text → ∃ text', t' = .number text' ∧ text' ≠ [] ∧
    ∀ (α : Type) [Coefficient α], readNumber? α text' = readNumber? α text
  denotes : ∀ text text', t = .number text → t' = .number text' →
    text.any Char.isDigit = true → text.count '.' ≤ 1 →
    ∃ d, decimal? text = some d ∧ decimal? text' = some d

/-- A run of digits and points is read as the decimal that it says. -/
theorem readNumber?_congr {text text' : List Char} (h : (Token.number text).IsProper)
    (h' : (Token.number text').IsProper) (hsame : decimal? text' = decimal? text) (α : Type)
    [Coefficient α] :
    readNumber? α text' = readNumber? α text := by
  obtain ⟨c, cs, rfl⟩ := List.exists_cons_of_ne_nil h.1
  obtain ⟨c', cs', rfl⟩ := List.exists_cons_of_ne_nil h'.1
  rw [readNumber?, readNumber?, ofText?_of_isNumeric cs (h.2 c List.mem_cons_self),
    ofText?_of_isNumeric cs' (h'.2 c' List.mem_cons_self), literalDecimal?_of_isNumeric h.2,
    literalDecimal?_of_isNumeric h'.2, hsame]

theorem Token.Trims.staysAs {t t' : Token} (h : t.Trims t') (ht : t.IsProper) : t.StaysAs t' where
  trims := h
  reads := by
    rintro text rfl
    obtain ⟨text', rfl⟩ : ∃ text', t' = .number text' := by
      cases h with
      | same => exact ⟨text, rfl⟩
      | front m more hd => exact ⟨_, rfl⟩
    have ht' := h.isProper ht
    exact ⟨text', rfl, ht'.1, readNumber?_congr ht ht' h.decimal?_eq⟩
  denotes := by
    rintro text text' rfl rfl hdigit hpoint
    have hdenotes : decimal? text =
        some (digitsValue 0 (text.filter Char.isDigit),
            (text.dropWhile (· ≠ '.')).tail.length) := by
      rw [decimal?, hdigit, decide_eq_true hpoint]
      rfl
    exact ⟨_, hdenotes, h.decimal?_eq.trans hdenotes⟩

/-- **Dropping zeros changes nothing that is parsed.** Whatever the text, its tokens stay, one by
one, except for zeros that numbers lose at their front, and all numbers stay the same numbers. -/
theorem tokenize_stripLeadingZeros (text : List Char) :
    (tokenize (stripLeadingZeros text)).length = (tokenize text).length ∧
      List.Forall₂ Token.StaysAs (tokenize text) (tokenize (stripLeadingZeros text)) := by
  have hrows : TrimmedRows (tokenize text) (tokenize (stripLeadingZeros text)) :=
    (trimmedRows_stripZerosFrom .outside text true).1
  have hproper : ∀ t ∈ tokenize text, t.IsProper := fun _ => isProper_of_mem_tokenizeFrom
  refine ⟨hrows.length_eq.symm, ?_⟩
  exact ((List.forall₂_and_left _ _).2 ⟨hproper, hrows⟩).imp fun _ _ h => h.2.staysAs h.1

/-- Only the front of a number is trimmed, and not even that behind a sign that a point precedes. -/
example :
    stripLeadingZeros "00.50+0070.0.07*.-007".toList = "0.50+70.0.07*.-007".toList := by decide

end InkAlgebra

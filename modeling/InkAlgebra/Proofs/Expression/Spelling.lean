import Mathlib
import InkAlgebra.Proofs.Expression.Phrases
import InkAlgebra.Proofs.Expression.Trimming
import InkAlgebra.Proofs.Polynomial.Unbounded

/-!
# Spellings of numbers

Two rows of tokens that differ in nothing but the spelling of their numbers are parsed alike and
evaluated alike. Dropping leading zeros is such a respelling, for every text whatsoever, so that
what a text means can be read off it before its zeros are dropped.

§1 are the rows, §2 parsing and evaluating them, §3 zeros.
-/

open Polynomial

namespace InkAlgebra

/-! ## §1  Rows that are alike -/

/-- Whether two tokens are the same up to the spelling of a number. -/
inductive Token.Alike : Token → Token → Prop
  | same (t : Token) : Alike t t
  | number {s t : List Char} (hs : (Token.number s).IsProper) (ht : (Token.number t).IsProper)
      (h : decimal? s = decimal? t) : Alike (.number s) (.number t)

theorem Token.Alike.symm {s t : Token} (h : s.Alike t) : t.Alike s := by
  cases h with
  | same => exact .same s
  | number hs ht hst => exact .number ht hs hst.symm

theorem Token.Alike.trans {s t u : Token} (h : s.Alike t) (h' : t.Alike u) : s.Alike u := by
  cases h with
  | same => exact h'
  | number hs ht hst =>
      cases h' with
      | same => exact .number hs ht hst
      | number _ hu htu => exact .number hs hu (hst.trans htu)

/-- Whether two rows are the same up to the spelling of their numbers. -/
def AlikeRows (row row' : List Token) : Prop := List.Forall₂ Token.Alike row row'

namespace AlikeRows

variable {row row' row'' front front' : List Token}

theorem refl (row : List Token) : AlikeRows row row := List.forall₂_same.2 fun t _ => .same t

theorem symm (h : AlikeRows row row') : AlikeRows row' row := by
  induction h with
  | nil => exact .nil
  | cons ht _ ih => exact .cons ht.symm ih

theorem trans (h : AlikeRows row row') (h' : AlikeRows row' row'') : AlikeRows row row'' := by
  induction h generalizing row'' with
  | nil => exact h'
  | cons ht _ ih =>
      cases h' with
      | cons ht' hrest => exact .cons (ht.trans ht') (ih hrest)

theorem append (hfront : AlikeRows front front') (h : AlikeRows row row') :
    AlikeRows (front ++ row) (front' ++ row') :=
  List.rel_append hfront h

theorem append_left (front : List Token) (h : AlikeRows row row') :
    AlikeRows (front ++ row) (front ++ row') :=
  (refl front).append h

end AlikeRows

/-! ## §2  Parsing and evaluating -/

/-- **Parsing** keeps rows alike. -/
theorem AlikeRows.exists_toPostfixFrom {row row' : List Token} (h : AlikeRows row row')
    {stack : List Pending} {out : List Token} (hout : toPostfixFrom stack row = .ok out) :
    ∃ out', toPostfixFrom stack row' = .ok out' ∧ AlikeRows out out' := by
  induction h generalizing stack out with
  | nil => exact ⟨out, hout, .refl out⟩
  | @cons t t' rest rest' ht _ ih =>
      -- what a token lets go of goes out in front of both
      have hbehind : ∀ (stack' : List Pending) (sent : List Token),
          (toPostfixFrom stack' rest).map (sent ++ ·) = .ok out →
            ∃ out', (toPostfixFrom stack' rest').map (sent ++ ·) = .ok out' ∧
                AlikeRows out out' := by
        intro stack' sent hsent
        obtain ⟨more, hmore, rfl⟩ := exists_of_map_eq_ok hsent
        obtain ⟨more', hmore', halike⟩ := ih hmore
        exact ⟨sent ++ more', by rw [hmore']; rfl, halike.append_left sent⟩
      cases ht with
      | @number a b ha hb hab =>
          obtain ⟨more, hmore, rfl⟩ := exists_of_map_eq_ok hout
          obtain ⟨more', hmore', halike⟩ := ih hmore
          refine ⟨.number b :: more', ?_, .cons (.number ha hb hab) halike⟩
          show (toPostfixFrom stack rest').map (.number b :: ·) = _
          rw [hmore']
          rfl
      | same =>
          cases t with
          | opening c => exact ih hout
          | unknown c => cases hout
          | number text => exact hbehind stack [.number text] hout
          | letter c => exact hbehind stack [.letter c] hout
          | op o => exact hbehind _ _ hout
          | closing c =>
              rw [toPostfixFrom] at hout ⊢
              cases hclose : Pending.close? c stack with
              | none =>
                  rw [hclose] at hout
                  cases hout
              | some found =>
                  rw [hclose] at hout
                  exact hbehind _ _ hout

open Exact

variable {K : Type} [Field K] [LinearOrder K] [FloorRing K]

theorem Token.Alike.operand_eq {s t : Token} (h : s.Alike t) (cap : ℕ) :
    (formalMeaning (K := K) cap).operand s = (formalMeaning cap).operand t := by
  cases h with
  | same => rfl
  | @number a b ha hb hab =>
      have hread : readNumber? K a = readNumber? K b := by
        rw [readNumber?_of_isNumeric ha.1 ha.2, readNumber?_of_isNumeric hb.1 hb.2, hab]
      simp only [formalMeaning, hread]

/-- What follows a token matters only by what it comes to on each stack. -/
theorem Meaning.runFrom_cons_congr {ε β : Type} {m : Meaning ε β} {rest rest' : List Token}
    (h : ∀ stack, m.runFrom stack rest = m.runFrom stack rest') (t : Token) (stack : List β) :
    m.runFrom stack (t :: rest) = m.runFrom stack (t :: rest') := by
  cases t with
  | op o =>
      cases hunary : o.isUnary with
      | true =>
          cases stack with
          | nil => simp only [runFrom, hunary, if_true]
          | cons a below =>
              simp only [runFrom, hunary, if_true]
              exact h _
      | false =>
          rcases stack with _ | ⟨b, _ | ⟨a, below⟩⟩
          · simp only [runFrom, hunary, Bool.false_eq_true, if_false]
          · simp only [runFrom, hunary, Bool.false_eq_true, if_false]
          · simp only [runFrom, hunary, Bool.false_eq_true, if_false]
            exact congrArg _ (funext fun v => h _)
  | number _ | letter _ | opening _ | closing _ | unknown _ =>
      rw [runFrom_operand (by simp), runFrom_operand (by simp)]
      exact congrArg _ (funext fun v => h _)

theorem Meaning.runFrom_append_congr {ε β : Type} {m : Meaning ε β} {rest rest' : List Token}
    (h : ∀ stack, m.runFrom stack rest = m.runFrom stack rest') (front : List Token)
    (stack : List β) : m.runFrom stack (front ++ rest) = m.runFrom stack (front ++ rest') := by
  induction front generalizing stack with
  | nil => exact h stack
  | cons t front ih => exact runFrom_cons_congr ih t stack

/-- **Running** on rows that are alike comes to the same. -/
theorem AlikeRows.runFrom_eq {row row' : List Token} (h : AlikeRows row row') (cap : ℕ)
    (stack : List K[X]) :
    (formalMeaning cap).runFrom stack row = (formalMeaning cap).runFrom stack row' := by
  induction h generalizing stack with
  | nil => rfl
  | @cons t t' rest rest' ht _ ih =>
      cases ht with
      | same => exact Meaning.runFrom_cons_congr ih t stack
      | @number a b ha hb hab =>
          rw [Meaning.runFrom_operand (by simp), Meaning.runFrom_operand (by simp),
            (Token.Alike.number ha hb hab).operand_eq]
          exact congrArg _ (funext fun v => ih _)

theorem AlikeRows.formalValue_eq {row row' : List Token} (h : AlikeRows row row') (cap : ℕ) :
    formalValue (K := K) cap row = formalValue cap row' := by
  unfold formalValue toPostfix
  cases hout : toPostfixFrom [] row with
  | ok out =>
      obtain ⟨out', hout', halike⟩ := h.exists_toPostfixFrom hout
      rw [hout']
      exact halike.runFrom_eq cap []
  | error e =>
      cases hout' : toPostfixFrom [] row' with
      | error e' => rfl
      | ok out' =>
          obtain ⟨out, hback, _⟩ := h.symm.exists_toPostfixFrom hout'
          rw [hout] at hback
          cases hback

/-! ## §3  Zeros -/

/-- Trimming a number respells it. -/
theorem TrimmedRows.alikeRows {row row' : List Token} (h : TrimmedRows row row')
    (hproper : ∀ t ∈ row, t.IsProper) : AlikeRows row' row := by
  refine List.Forall₂.flip (((List.forall₂_and_left _ _).2 ⟨hproper, h⟩).imp ?_)
  rintro t t' ⟨ht, htrims⟩
  cases htrims with
  | same => exact .same t
  | front m more hd =>
      have hfront := Token.Trims.front m more hd
      exact .number (hfront.isProper ht) ht hfront.decimal?_eq

/-- **Zeros.** Dropping the zeros at the front of a number respells it, and nothing else. -/
theorem alikeRows_stripZerosFrom (s : ZeroState) (text : List Char) (signExpected : Bool) :
    AlikeRows (tokenizeFrom signExpected (stripZerosFrom s text))
      (tokenizeFrom signExpected (s.held ++ text)) :=
  (trimmedRows_stripZerosFrom s text signExpected).1.alikeRows fun _ => isProper_of_mem_tokenizeFrom

theorem alikeRows_canonicalForm (text : List Char) :
    AlikeRows (tokenize (canonicalForm text)) (tokenize (writeProducts none text)) :=
  alikeRows_stripZerosFrom .outside _ true

end InkAlgebra

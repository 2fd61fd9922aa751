import Mathlib
import InkAlgebra.Proofs.Expression.Adjacency

/-!
# Texts and rows of tokens

Splitting a text into tokens loses nothing and chooses nothing. The row that comes out is in a
canonical form, which can be told without looking at the text: every token is of the class of its
characters, no number goes on in the next token, and a `+` or `-` is a sign exactly where no operand
can have ended. A text can be put together again from its row, and a canonical row is the only one
with its text, so that texts and canonical rows correspond one to one.

Both directions are one induction each, over the text and over the row. What has to be carried along
is a single bit: whether a sign is expected at the place that has been reached.

§1 is the canonical form, §2 that splitting gives it, §3 that splitting is the only way to it.
-/

namespace InkAlgebra

/-! ## §1  Canonical rows -/

/-- Whether a character belongs to no class that expressions are made of. -/
def IsForeign (c : Char) : Prop :=
  isNumeric c = false ∧ isOpeningChar c = false ∧ isClosingChar c = false ∧ isLetter c = false ∧
    Op.ofChar? c = none

namespace Token

def isNumber : Token → Bool
  | number _ => true
  | _ => false

/-- Whether a token is of the class of its characters. -/
def IsOfClass : Token → Prop
  | unknown c => IsForeign c
  | t => t.IsProper

/-- Whether a token can stand at a place: signs where one is expected, sums and differences
elsewhere, and all other tokens anywhere. -/
def Fits (signExpected : Bool) : Token → Prop
  | op .neg | op .pos => signExpected = true
  | op .add | op .sub => signExpected = false
  | _ => True

/-- Whether one token can stand right in front of another. -/
def MayPrecede (s t : Token) : Prop :=
  t.Fits s.invitesSign ∧ ¬ (s.isNumber = true ∧ t.isNumber = true)

end Token

/-- Whether a row of tokens is in canonical form, starting at a place where a sign is or is not
expected. -/
structure CanonicalFrom (signExpected : Bool) (row : List Token) : Prop where
  ofClass : ∀ t ∈ row, t.IsOfClass
  first : ∀ t ∈ row.head?, t.Fits signExpected
  next : row.IsChain Token.MayPrecede

/-- Whether a row of tokens is in canonical form; a sign can be its first token. -/
def Canonical (row : List Token) : Prop := CanonicalFrom true row

namespace CanonicalFrom

variable {signExpected : Bool} {t : Token} {row : List Token}

theorem nil (signExpected : Bool) : CanonicalFrom signExpected [] where
  ofClass := nofun
  first := nofun
  next := .nil

/-- A row is canonical if its first token is in order and the rest is a canonical row behind it. -/
theorem cons_iff : CanonicalFrom signExpected (t :: row) ↔
    t.IsOfClass ∧ t.Fits signExpected ∧ (t.isNumber = true → row.head?.any Token.isNumber = false) ∧
      CanonicalFrom t.invitesSign row := by
  have hhead : (∀ s ∈ row.head?, t.MayPrecede s) ↔
      (∀ s ∈ row.head?, s.Fits t.invitesSign) ∧
          (t.isNumber = true → row.head?.any Token.isNumber = false) := by
    cases row.head? with
    | none => simp
    | some s => simp [Token.MayPrecede]
  constructor
  · rintro ⟨hclass, hfirst, hnext⟩
    obtain ⟨ht, hrow⟩ := List.forall_mem_cons.1 hclass
    obtain ⟨hjoin, hnext⟩ := List.isChain_cons.1 hnext
    obtain ⟨hfits, hnumber⟩ := hhead.1 hjoin
    exact ⟨ht, hfirst t rfl, hnumber, hrow, hfits, hnext⟩
  · rintro ⟨ht, hfits, hnumber, hrow⟩
    refine ⟨List.forall_mem_cons.2 ⟨ht, hrow.ofClass⟩, ?_, List.isChain_cons.2 ⟨?_, hrow.next⟩⟩
    · rintro s ⟨⟩
      exact hfits
    · exact hhead.2 ⟨hrow.first, hnumber⟩

end CanonicalFrom

/-! ## §2  Splitting gives canonical rows -/

/-- An operator's character stands for a sign exactly where one is expected. -/
theorem fits_op (signExpected : Bool) {c : Char} {o : Op} (h : Op.ofChar? c = some o) :
    (Token.op (if signExpected then o.asSign else o)).Fits signExpected := by
  have hbinary := isUnary_of_ofChar? h
  cases o with
  | neg | pos => cases hbinary
  | add | sub => cases signExpected <;> rfl
  | mul | div | pow => cases signExpected <;> trivial

/-- The token of a character that is not numeric is in order where it stands. -/
theorem ofClass_and_fits_ofChar (signExpected : Bool) {c : Char} (hc : isNumeric c = false) :
    (Token.ofChar signExpected c).IsOfClass ∧ (Token.ofChar signExpected c).Fits signExpected := by
  unfold Token.ofChar
  split_ifs with hopening hclosing hletter hsign
  · exact ⟨hopening, trivial⟩
  · exact ⟨hclosing, trivial⟩
  · exact ⟨hletter, trivial⟩
  all_goals
    cases ho : Op.ofChar? c with
    | some o => exact ⟨trivial, by simpa [hsign] using fits_op signExpected ho⟩
    | none =>
        have hforeign : IsForeign c :=
          ⟨hc, Bool.eq_false_iff.2 hopening, Bool.eq_false_iff.2 hclosing,
            Bool.eq_false_iff.2 hletter, ho⟩
        exact ⟨hforeign, trivial⟩

/-- A numeric character joins a canonical row, as part of its first number or as a number of its
own. -/
theorem CanonicalFrom.consNumeric {c : Char} (hc : isNumeric c = true) {row : List Token}
    (h : CanonicalFrom false row) (signExpected : Bool) :
    CanonicalFrom signExpected (Token.consNumeric c row) := by
  have hone : (Token.number [c]).IsOfClass := ⟨by simp, by simpa using hc⟩
  cases row with
  | nil => exact CanonicalFrom.cons_iff.2 ⟨hone, trivial, fun _ => rfl, .nil _⟩
  | cons t rest =>
      cases t with
      | number text =>
          obtain ⟨⟨_, htext⟩, _, hnumber, hrest⟩ := CanonicalFrom.cons_iff.1 h
          have hmore : (Token.number (c :: text)).IsOfClass :=
            ⟨by simp, List.forall_mem_cons.2 ⟨hc, htext⟩⟩
          exact CanonicalFrom.cons_iff.2 ⟨hmore, trivial, hnumber, hrest⟩
      | letter _ | op _ | opening _ | closing _ | unknown _ =>
          exact CanonicalFrom.cons_iff.2 ⟨hone, trivial, fun _ => rfl, h⟩

theorem canonicalFrom_tokenizeFrom (signExpected : Bool) (text : List Char) :
    CanonicalFrom signExpected (tokenizeFrom signExpected text) := by
  induction text generalizing signExpected with
  | nil => exact .nil signExpected
  | cons c rest ih =>
      cases hc : isNumeric c with
      | true =>
          rw [tokenizeFrom_of_isNumeric signExpected rest hc]
          exact (ih false).consNumeric hc signExpected
      | false =>
          obtain ⟨hclass, hfits⟩ := ofClass_and_fits_ofChar signExpected hc
          have hnumber : (Token.ofChar signExpected c).isNumber = false := by
            cases ht : Token.ofChar signExpected c with
            | number text => exact absurd ht (ofChar_ne_number signExpected c text)
            | _ => rfl
          rw [tokenizeFrom_of_not_isNumeric signExpected rest hc]
          exact CanonicalFrom.cons_iff.2 ⟨hclass, hfits, fun h =>
            absurd h (by simp [hnumber]), ih _⟩

/-! ## §3  Splitting gives every canonical row -/

theorem ofChar_of_isForeign {c : Char} (signExpected : Bool) (h : IsForeign c) :
    Token.ofChar signExpected c = .unknown c := by
  obtain ⟨_, hopening, hclosing, hletter, hop⟩ := h
  unfold Token.ofChar
  split_ifs with hopening' hclosing' hletter'
  · exact absurd hopening' (Bool.eq_false_iff.1 hopening)
  · exact absurd hclosing' (Bool.eq_false_iff.1 hclosing)
  · exact absurd hletter' (Bool.eq_false_iff.1 hletter)
  all_goals rw [hop]

/-- A token that is no number is one character, and the token of this character where it fits. -/
theorem exists_ofChar_eq {signExpected : Bool} {t : Token} (hclass : t.IsOfClass)
    (hfits : t.Fits signExpected) (hnumber : t.isNumber = false) :
    ∃ c, t.source = [c] ∧ isNumeric c = false ∧ Token.ofChar signExpected c = t := by
  cases t with
  | number text => cases hnumber
  | opening c =>
      have hopening : isOpeningChar c = true := hclass
      simp only [isOpeningChar, Bool.or_eq_true, decide_eq_true_eq] at hopening
      rcases hopening with (rfl | rfl) | rfl <;> exact ⟨_, rfl, rfl, rfl⟩
  | closing c =>
      have hclosing : isClosingChar c = true := hclass
      simp only [isClosingChar, Bool.or_eq_true, decide_eq_true_eq] at hclosing
      rcases hclosing with (rfl | rfl) | rfl <;> exact ⟨_, rfl, rfl, rfl⟩
  | letter c =>
      exact ⟨c, rfl, isNumeric_eq_false_of_isLetter hclass, ofChar_of_isLetter signExpected hclass⟩
  | unknown c => exact ⟨c, rfl, hclass.1, ofChar_of_isForeign signExpected hclass⟩
  | op o =>
      cases o with
      | add | sub | neg | pos =>
          obtain rfl := hfits
          exact ⟨_, rfl, rfl, rfl⟩
      | mul | div | pow => cases signExpected <;> exact ⟨_, rfl, rfl, rfl⟩

/-- Behind a number that does not go on in the next token, the text does not go on with a numeric
character. -/
theorem startsNumeric_flatMap_source {row : List Token} {signExpected : Bool}
    (h : CanonicalFrom signExpected row) (hhead : row.head?.any Token.isNumber = false) :
    startsNumeric (row.flatMap Token.source) = false := by
  cases row with
  | nil => rfl
  | cons t rest =>
      obtain ⟨hclass, hfits, _, _⟩ := CanonicalFrom.cons_iff.1 h
      obtain ⟨c, hsource, hc, _⟩ := exists_ofChar_eq hclass hfits hhead
      rw [List.flatMap_cons, hsource]
      exact hc

/-- **Splitting undoes joining.** The text of a canonical row is split into that row. -/
theorem tokenizeFrom_flatMap_source {signExpected : Bool} {row : List Token}
    (h : CanonicalFrom signExpected row) :
    tokenizeFrom signExpected (row.flatMap Token.source) = row := by
  induction row generalizing signExpected with
  | nil => rfl
  | cons t rest ih =>
      obtain ⟨hclass, hfits, hnumber, hrest⟩ := CanonicalFrom.cons_iff.1 h
      rw [List.flatMap_cons]
      cases ht : t.isNumber with
      | true =>
          have hbehind := startsNumeric_flatMap_source hrest (hnumber ht)
          cases t with
          | number text =>
              obtain ⟨hne, htext⟩ := hclass
              exact (tokenizeFrom_number _ signExpected hne htext hbehind).trans
                (congrArg _ (ih hrest))
          | letter _ | op _ | opening _ | closing _ | unknown _ => cases ht
      | false =>
          obtain ⟨c, hsource, hc, hchar⟩ := exists_ofChar_eq hclass hfits ht
          rw [hsource, List.singleton_append,
            tokenizeFrom_of_not_isNumeric signExpected _ hc, hchar, ih hrest]

/-- **Texts and canonical rows correspond one to one.** The tokens of a text joined together are the
text, a canonical row is what its text is split into, and the rows that texts are split into are the
canonical ones, each that of one text. -/
theorem tokenize_bijOn_canonical :
    (∀ text, (tokenize text).flatMap Token.source = text) ∧
      (∀ row, Canonical row → tokenize (row.flatMap Token.source) = row) ∧
      Set.BijOn tokenize Set.univ {row | Canonical row} := by
  have hlossless :
      Function.LeftInverse (fun row : List Token => row.flatMap Token.source) tokenize :=
    flatMap_source_tokenizeFrom true
  have hback : ∀ row, Canonical row → tokenize (row.flatMap Token.source) = row := fun _ =>
    tokenizeFrom_flatMap_source
  refine ⟨hlossless, hback, ?_, hlossless.injective.injOn, ?_⟩
  · intro text _
    exact canonicalFrom_tokenizeFrom true text
  · intro row hrow
    exact ⟨row.flatMap Token.source, trivial, hback row hrow⟩

/-- Behind a difference and behind an opening bracket a `-` or `+` is a sign, behind a closing
bracket it is none. -/
example : tokenize "2.5--(+x)-=".toList =
    [.number "2.5".toList, .op .sub, .op .neg, .opening '(', .op .pos, .letter 'x',
      .closing ')', .op .sub, .unknown '='] := by decide

end InkAlgebra

import Mathlib
import InkAlgebra.Proofs.Expression.Adjacency
import InkAlgebra.Proofs.Number.Exact

/-!
# Leading zeros of whole numbers

A canonical form should hold no whole number with a zero too many: each run of digits that does not
follow a point is a single zero or starts with another digit. It nearly does. Dropping zeros keeps
one character behind a point, whatever it is, and the digits right behind that character with it, so
that in `3.-007` the zeros stay. This file says for which texts they do: those with a comma, a mark
that no product is written behind, and there a number that starts with a zero.

Behind a point itself digits are never touched: the digits behind the points of a canonical form are
those behind the commas of the text.

§1 is runs of digits, §2 zeros that stay when zeros are dropped, §3 the same in the text that was
recognised, §4 the digits behind a point, §5 all together.
-/

namespace InkAlgebra

/-! ## §1  Runs of digits -/

/-- Whether a text of three parts has for its second part a run of digits that cannot be made
longer. -/
structure IsRun (before run behind : List Char) : Prop where
  ne_nil : run ≠ []
  digits : ∀ c ∈ run, c.isDigit = true
  before : ∀ c ∈ before.getLast?, c.isDigit = false
  behind : ∀ c ∈ behind.head?, c.isDigit = false

/-- Whether each run of digits that does not follow a point is a zero or starts with another
digit. -/
def WholesTrimmed (text : List Char) : Prop :=
  ∀ before run behind, text = before ++ (run ++ behind) → IsRun before run behind →
    before.getLast? ≠ some '.' → run = ['0'] ∨ run.head? ≠ some '0'

/-- Whether a text starts with a zero and another digit. -/
def leadsWithZero : List Char → Bool
  | '0' :: d :: _ => d.isDigit
  | _ => false

theorem leadsWithZero_iff {text : List Char} :
    leadsWithZero text = true ↔ ∃ d more, text = '0' :: d :: more ∧ d.isDigit = true := by
  constructor
  · intro h
    unfold leadsWithZero at h
    split at h
    · exact ⟨_, _, rfl, h⟩
    · cases h
  · rintro ⟨d, more, rfl, hd⟩
    exact hd

theorem leadsWithZero_cons_of_ne {c : Char} (hc : c ≠ '0') (rest : List Char) :
    leadsWithZero (c :: rest) = false := by
  rw [Bool.eq_false_iff]
  intro h
  obtain ⟨d, more, heq, _⟩ := leadsWithZero_iff.1 h
  exact hc (List.cons.inj heq).1

/-- What stands behind the digits at the front does not matter. -/
theorem leadsWithZero_takeWhile (text : List Char) :
    leadsWithZero (text.takeWhile Char.isDigit) = leadsWithZero text := by
  rcases text with _ | ⟨c, rest⟩
  · rfl
  · by_cases hc : c = '0'
    · subst hc
      rcases rest with _ | ⟨d, more⟩
      · rfl
      · by_cases hd : d.isDigit = true
        · rw [List.takeWhile_cons_of_pos (by decide), List.takeWhile_cons_of_pos hd]
          rfl
        · rw [List.takeWhile_cons_of_pos (by decide), List.takeWhile_cons_of_neg hd]
          exact (Bool.eq_false_iff.2 hd).symm
    · rw [leadsWithZero_cons_of_ne hc, List.takeWhile_cons]
      split
      · exact leadsWithZero_cons_of_ne hc _
      · rfl

/-- Whether a text starts with a character of some class and a number with a leading zero. -/
def opensZero (q : Char → Bool) : List Char → Bool
  | [] => false
  | c :: rest => q c && leadsWithZero rest

/-- Whether somewhere a number with a leading zero stands right behind a character of some class. -/
def zeroBehind (q : Char → Bool) (text : List Char) : Bool := text.tails.any (opensZero q)

theorem zeroBehind_cons (q : Char → Bool) (c : Char) (rest : List Char) :
    zeroBehind q (c :: rest) = (q c && leadsWithZero rest || zeroBehind q rest) := rfl

theorem zeroBehind_eq_true_iff {q : Char → Bool} {text : List Char} : zeroBehind q text = true ↔
    ∃ before c behind, text = before ++ c :: behind ∧ q c = true ∧ leadsWithZero behind = true := by
  rw [zeroBehind, List.any_eq_true]
  constructor
  · rintro ⟨tail, htail, hopens⟩
    obtain ⟨before, rfl⟩ := (List.mem_tails ..).1 htail
    cases tail with
    | nil => cases hopens
    | cons c behind => exact ⟨before, c, behind, rfl, (Bool.and_eq_true ..).mp hopens⟩
  · rintro ⟨before, c, behind, rfl, hopens⟩
    exact ⟨c :: behind, (List.mem_tails ..).2 (List.suffix_append ..),
      (Bool.and_eq_true ..).mpr hopens⟩

/-- Whether a character is no part of a number. -/
def isApart (c : Char) : Bool := !isNumeric c

/-- A run has a zero too many exactly if a leading zero stands behind something that is no part of a
number; a mark in front stands for nothing in front. -/
theorem wholesTrimmed_iff {text : List Char} :
    WholesTrimmed text ↔ zeroBehind isApart ('*' :: text) = false := by
  rw [← Bool.not_eq_true, zeroBehind_eq_true_iff]
  constructor
  · rintro htrimmed ⟨before, c, behind, heq, hc, hzero⟩
    obtain ⟨d, more, rfl, hd⟩ := leadsWithZero_iff.1 hzero
    obtain ⟨front, rfl, hfront⟩ : ∃ front, text = front ++ '0' :: d :: more ∧
        ∀ x ∈ front.getLast?, isApart x = true := by
      cases before with
      | nil => exact ⟨[], (List.cons.inj heq).2, by simp⟩
      | cons b before =>
          refine ⟨before ++ [c], by simpa using (List.cons.inj heq).2, fun x hx => ?_⟩
          obtain rfl : c = x := by simpa using hx
          exact hc
    have hpoint : front.getLast? ≠ some '.' := fun h => absurd (hfront '.' h) (by decide)
    have hrun : IsRun front ('0' :: d :: more.takeWhile Char.isDigit)
        (more.dropWhile Char.isDigit) := by
      refine ⟨List.cons_ne_nil _ _, ?_, fun x hx => ?_, fun x hx => ?_⟩
      · have hdigits : ∀ x ∈ more.takeWhile Char.isDigit, x.isDigit = true :=
          fun x hx => List.mem_takeWhile_imp hx
        exact List.forall_mem_cons.2 ⟨rfl, List.forall_mem_cons.2 ⟨hd, hdigits⟩⟩
      · have hx' := hfront x hx
        rw [isApart, Bool.not_eq_true', isNumeric, Bool.or_eq_false_iff] at hx'
        exact hx'.1
      · have hhead := List.head?_dropWhile_not Char.isDigit more
        rw [hx] at hhead
        exact hhead
    have hsplit : front ++ '0' :: d :: more =
        front ++ ('0' :: d :: more.takeWhile Char.isDigit ++ more.dropWhile Char.isDigit) := by
      rw [List.cons_append, List.cons_append, List.takeWhile_append_dropWhile]
    rcases htrimmed _ _ _ hsplit hrun hpoint with h | h
    · cases h
    · exact h rfl
  · intro hnone before run behind heq hrun hpoint
    by_contra hbad
    push Not at hbad
    obtain ⟨hsingle, hhead⟩ := hbad
    obtain ⟨d, more, rfl⟩ : ∃ d more, run = '0' :: d :: more := by
      rcases run with _ | ⟨c, _ | ⟨d, more⟩⟩
      · cases hhead
      · cases hhead
        exact absurd rfl hsingle
      · cases hhead
        exact ⟨d, more, rfl⟩
    have hd : d.isDigit = true := hrun.digits d (by simp)
    apply hnone
    rcases List.eq_nil_or_concat before with rfl | ⟨front, c, rfl⟩
    · exact ⟨[], '*', '0' :: d :: (more ++ behind), by rw [heq]; rfl, by decide, hd⟩
    · rw [List.concat_eq_append] at hrun hpoint heq
      have hc : isApart c = true := by
        have hdigit : c.isDigit = false := hrun.before c (by simp)
        have hne : c ≠ '.' := by
          rintro rfl
          exact hpoint (by simp)
        simp [isApart, isNumeric, hdigit, hne]
      exact ⟨'*' :: front, c, '0' :: d :: (more ++ behind), by rw [heq]; simp, hc, hd⟩

/-! ## §2  Zeros that stay -/

/-- Whether a text starts with a mark, one more character of some class and a number with a leading
zero. -/
def opensShielded (mark : Char) (q : Char → Bool) : List Char → Bool
  | [] => false
  | c :: rest => c = mark && opensZero q rest

/-- Whether somewhere a number with a leading zero stands behind a mark and one more character of
some class. -/
def zeroShielded (mark : Char) (q : Char → Bool) (text : List Char) : Bool :=
  text.tails.any (opensShielded mark q)

theorem zeroShielded_cons (mark : Char) (q : Char → Bool) (c : Char) (rest : List Char) :
    zeroShielded mark q (c :: rest) =
      (c = mark && opensZero q rest || zeroShielded mark q rest) := rfl

/-- Which characters can have been written last in a state. -/
def ZeroState.Follows : ZeroState → Char → Prop
  | .outside, p | .leading, p => isApart p = true
  | .kept, p => p ≠ '.'
  | .behindPoint, p => p = '.'

/-- Whether a text that is read from a state on, behind a character, keeps a leading zero at its
start. -/
def ZeroState.shields : ZeroState → Char → List Char → Bool
  | .outside, _, _ | .leading, _, _ => false
  | .kept, p, text => isApart p && leadsWithZero text
  | .behindPoint, _, text => opensZero isApart text

theorem ZeroState.follows_after (c : Char) : (ZeroState.after c).Follows c := by
  unfold ZeroState.after
  split_ifs with hdigit hpoint
  · exact ne_dot_of_isDigit hdigit
  · exact hpoint
  · simp [Follows, isApart, isNumeric, hdigit, hpoint]

theorem ZeroState.shields_after (c : Char) (text : List Char) :
    (ZeroState.after c).shields c text = (c = '.' && opensZero isApart text) := by
  unfold ZeroState.after
  split_ifs with hdigit hpoint
  · have hapart : isApart c = false := by simp [isApart, isNumeric, hdigit]
    simp [shields, hapart, ne_dot_of_isDigit hdigit]
  · simp [shields, hpoint]
  · simp [shields, hpoint]

/-- Where digits are kept, those at the front stay. -/
theorem takeWhile_stripZerosFrom_kept (text : List Char) :
    (stripZerosFrom .kept text).takeWhile Char.isDigit = text.takeWhile Char.isDigit := by
  induction text with
  | nil => rfl
  | cons c rest ih =>
      rw [stripZerosFrom, List.takeWhile_cons, List.takeWhile_cons]
      by_cases hdigit : c.isDigit = true
      · have hstate : ZeroState.after c = .kept := if_pos hdigit
        rw [if_pos hdigit, if_pos hdigit, hstate, ih]
      · rw [if_neg hdigit, if_neg hdigit]

theorem leadsWithZero_stripZerosFrom_kept (text : List Char) :
    leadsWithZero (stripZerosFrom .kept text) = leadsWithZero text := by
  rw [← leadsWithZero_takeWhile, takeWhile_stripZerosFrom_kept, leadsWithZero_takeWhile]

/-- **Zeros that stay.** Of the leading zeros of a text those stay that a point shields, with one
character between, and no others. -/
theorem zeroBehind_stripZerosFrom {s : ZeroState} {p : Char} (hs : s.Follows p) (text : List Char) :
    zeroBehind isApart (p :: stripZerosFrom s text) =
        (s.shields p text || zeroShielded '.' isApart text) := by
  induction text generalizing s p with
  | nil =>
      have hnone : (s.shields p [] || zeroShielded '.' isApart []) = false := by
        cases s <;> simp [ZeroState.shields, zeroShielded, opensShielded, opensZero, leadsWithZero]
      rw [hnone]
      cases s <;> simp [stripZerosFrom, zeroBehind, opensZero, leadsWithZero]
  | cons c rest ih =>
      -- a character that is written and is no leading zero itself
      have hafter := ih (ZeroState.follows_after c)
      rw [ZeroState.shields_after, ← zeroShielded_cons] at hafter
      cases s with
      | outside =>
          rw [stripZerosFrom]
          split
          · rename_i hc
            subst hc
            rw [ih (s := .leading) hs, zeroShielded_cons]
            simp [ZeroState.shields]
          · rename_i hc
            rw [zeroBehind_cons, leadsWithZero_cons_of_ne hc, hafter]
            simp [ZeroState.shields]
      | kept =>
          have hkept := leadsWithZero_stripZerosFrom_kept (c :: rest)
          rw [stripZerosFrom] at hkept ⊢
          rw [zeroBehind_cons, hkept, hafter, ZeroState.shields]
      | behindPoint =>
          obtain rfl : p = '.' := hs
          have hnumeric : isApart '.' = false := by decide
          rw [stripZerosFrom, zeroBehind_cons, hnumeric]
          split
          · rename_i hc
            subst hc
            rw [ih (s := .behindPoint) rfl, zeroShielded_cons, ZeroState.shields,
              ZeroState.shields, opensZero]
            simp [hnumeric]
          · rename_i hc
            rw [ih (s := .kept) hc, zeroShielded_cons, ZeroState.shields,
              ZeroState.shields, opensZero]
            simp [hc]
      | leading =>
          rw [stripZerosFrom]
          split
          · rename_i hc
            subst hc
            rw [ih (s := .leading) hs, zeroShielded_cons]
            simp [ZeroState.shields]
          · rename_i hc
            split
            · rename_i hdigit
              have hstate : ZeroState.after c = .kept := if_pos hdigit
              rw [zeroBehind_cons, leadsWithZero_cons_of_ne hc, ← hstate, hafter]
              simp [ZeroState.shields]
            · rename_i hdigit
              rw [zeroBehind_cons, zeroBehind_cons, hafter, leadsWithZero_cons_of_ne hc]
              have hsingle :
                  leadsWithZero ('0' :: c :: stripZerosFrom (ZeroState.after c) rest) = false :=
                Bool.eq_false_iff.2 hdigit
              simp [hsingle, ZeroState.shields]

/-! ## §3  In the text that was recognised -/

theorem canonicalMark_eq_point {c : Char} : canonicalMark c = '.' ↔ c = ',' := by
  unfold canonicalMark
  split <;> simp_all

theorem isApart_canonicalMark (c : Char) :
    isApart (canonicalMark c) = (!c.isDigit && !decide (c = ',')) := by
  rw [isApart, isNumeric, (classes_canonicalMark c).1,
    decide_eq_decide.2 canonicalMark_eq_point, Bool.not_or]

/-- Digits at the front of a text stay there unless a product is written before them. -/
theorem takeWhile_writeProducts (prev : Option Char) (text : List Char) :
    (writeProducts prev text).takeWhile Char.isDigit =
      if prev.any (needsProduct · '0') then [] else text.takeWhile Char.isDigit := by
  induction text generalizing prev with
  | nil => exact (ite_self _).symm
  | cons c rest ih =>
      have hclass := (classes_canonicalMark c).1
      by_cases hdigit : c.isDigit = true
      · -- digits all need the same products, and none needs one behind it
        have hneeds : prev.any (needsProduct · c) = prev.any (needsProduct · '0') := by
          cases prev with
          | none => rfl
          | some p => exact needsProduct_of_isDigit hdigit (by decide) p
        have hnext : needsProduct c '0' = false := by
          rw [needsProduct_of_isDigit (by decide) hdigit]
          obtain ⟨hletter, hopening, hclosing⟩ := classes_of_isNumeric (isNumeric_of_isDigit hdigit)
          simp [needsProduct, hletter, hopening, hclosing]
        have hsame : canonicalMark c = c :=
          canonicalMark_of_isOperandChar (by rw [isOperandChar, hdigit]; rfl)
        have hrest := ih (some c)
        rw [Option.any_some, hnext] at hrest
        rw [writeProducts, hneeds, hsame, List.takeWhile_cons_of_pos hdigit]
        split
        · rfl
        · rw [List.takeWhile_cons_of_pos hdigit, hrest]
          rfl
      · have hwritten : ∀ back, (canonicalMark c :: back).takeWhile Char.isDigit = [] := fun back =>
          List.takeWhile_cons_of_neg (by rw [hclass]; exact hdigit)
        rw [writeProducts, List.takeWhile_cons_of_neg hdigit, ite_self]
        split
        · rfl
        · exact hwritten _

/-- Which characters of a text shield the zeros behind them: not those that are part of a number,
and none that a product is written behind. -/
def shieldsZeros (c : Char) : Bool := !isOperandChar c && !isClosingChar c && c ≠ ','

theorem opensZero_writeProducts (text : List Char) :
    opensZero isApart (writeProducts none text) = opensZero shieldsZeros text := by
  cases text with
  | nil => rfl
  | cons c rest =>
      show (isApart (canonicalMark c) && leadsWithZero (writeProducts (some c) rest)) =
        (shieldsZeros c && leadsWithZero rest)
      rw [← leadsWithZero_takeWhile, takeWhile_writeProducts, Option.any_some]
      have hneeds : needsProduct c '0' = (isLetter c || isClosingChar c) := by
        simp [needsProduct, isOperandChar, isOpeningChar, show isLetter '0' = false by decide]
      rw [hneeds, isApart_canonicalMark, shieldsZeros, isOperandChar]
      have hnil : leadsWithZero [] = false := rfl
      cases isLetter c <;> cases isClosingChar c <;> simp [leadsWithZero_takeWhile, hnil]

/-- Zeros are shielded in what is written for a text where they are in the text. -/
theorem zeroShielded_writeProducts (prev : Option Char) (text : List Char) :
    zeroShielded '.' isApart (writeProducts prev text) = zeroShielded ',' shieldsZeros text := by
  induction text generalizing prev with
  | nil => rfl
  | cons c rest ih =>
      have hmarked : zeroShielded '.' isApart (canonicalMark c :: writeProducts (some c) rest) =
          zeroShielded ',' shieldsZeros (c :: rest) := by
        rw [zeroShielded_cons, zeroShielded_cons, ih, decide_eq_decide.2 canonicalMark_eq_point]
        by_cases hc : c = ','
        · subst hc
          rw [writeProducts_some (by decide) (by decide), opensZero_writeProducts]
        · rw [decide_eq_false hc, Bool.false_and, Bool.false_and]
      rw [writeProducts]
      split
      · rw [zeroShielded_cons, hmarked]
        rfl
      · exact hmarked

/-! ## §4  Digits behind a point -/

/-- The digits right behind each place of a mark. -/
def runsBehind (mark : Char) : List Char → List (List Char)
  | [] => []
  | c :: rest =>
      if c = mark then rest.takeWhile Char.isDigit :: runsBehind mark rest else runsBehind mark rest

theorem runsBehind_cons_of_ne {mark c : Char} (hc : c ≠ mark) (rest : List Char) :
    runsBehind mark (c :: rest) = runsBehind mark rest := if_neg hc

theorem takeWhile_stripZerosFrom_behindPoint (text : List Char) :
    (stripZerosFrom .behindPoint text).takeWhile Char.isDigit = text.takeWhile Char.isDigit := by
  cases text with
  | nil => rfl
  | cons c rest =>
      rw [stripZerosFrom, List.takeWhile_cons, List.takeWhile_cons]
      by_cases hdigit : c.isDigit = true
      · rw [if_pos hdigit, if_pos hdigit, if_neg (ne_dot_of_isDigit hdigit),
          takeWhile_stripZerosFrom_kept]
      · rw [if_neg hdigit, if_neg hdigit]

/-- Dropping zeros leaves the digits behind a point alone. -/
theorem runsBehind_stripZerosFrom (s : ZeroState) (text : List Char) :
    runsBehind '.' (stripZerosFrom s text) = runsBehind '.' text := by
  induction text generalizing s with
  | nil => cases s <;> rfl
  | cons c rest ih =>
      have hwritten : ∀ t : ZeroState, (c = '.' → t = .behindPoint) →
          runsBehind '.' (c :: stripZerosFrom t rest) = runsBehind '.' (c :: rest) := by
        intro t ht
        by_cases hc : c = '.'
        · rw [ht hc, runsBehind, runsBehind, ih, takeWhile_stripZerosFrom_behindPoint]
        · rw [runsBehind_cons_of_ne hc, runsBehind_cons_of_ne hc, ih]
      have hafter : c = '.' → ZeroState.after c = .behindPoint := by
        rintro rfl
        rfl
      cases s with
      | kept => exact hwritten _ hafter
      | behindPoint => exact hwritten _ fun hc => if_pos hc
      | outside =>
          rw [stripZerosFrom]
          split
          · rename_i hc
            rw [ih, hc, runsBehind_cons_of_ne (by decide)]
          · exact hwritten _ hafter
      | leading =>
          rw [stripZerosFrom]
          split
          · rename_i hc
            rw [ih, hc, runsBehind_cons_of_ne (by decide)]
          · split
            · rename_i hdigit
              exact hwritten _ fun hc => absurd hc (ne_dot_of_isDigit hdigit)
            · rw [runsBehind_cons_of_ne (by decide)]
              exact hwritten _ hafter

/-- The digits behind the points that are written are those behind the commas of the text. -/
theorem runsBehind_writeProducts (prev : Option Char) (text : List Char) :
    runsBehind '.' (writeProducts prev text) = runsBehind ',' text := by
  induction text generalizing prev with
  | nil => rfl
  | cons c rest ih =>
      have hmarked : runsBehind '.' (canonicalMark c :: writeProducts (some c) rest) =
          runsBehind ',' (c :: rest) := by
        by_cases hc : c = ','
        · subst hc
          have hdigits := takeWhile_writeProducts (some ',') rest
          rw [Option.any_some, needsProduct_eq_false_left (by decide) (by decide)] at hdigits
          show (writeProducts (some ',') rest).takeWhile Char.isDigit :: runsBehind '.'
            (writeProducts (some ',') rest) = rest.takeWhile Char.isDigit :: runsBehind ',' rest
          rw [hdigits, ih]
          rfl
        · rw [runsBehind_cons_of_ne (mt canonicalMark_eq_point.1 hc), runsBehind_cons_of_ne hc, ih]
      rw [writeProducts]
      split
      · rw [runsBehind_cons_of_ne (by decide), hmarked]
      · exact hmarked

/-! ## §5  Whole numbers of a canonical form -/

/-- **Whole numbers.** No whole number of a canonical form has a leading zero too many, except where
the text has a comma, one character that no product is written behind and then a number with a
leading zero. The digits behind the points of a canonical form are those behind the commas of the
text. -/
theorem wholesTrimmed_canonicalForm_iff (text : List Char) :
    (WholesTrimmed (canonicalForm text) ↔ zeroShielded ',' shieldsZeros text = false) ∧
      runsBehind '.' (canonicalForm text) = runsBehind ',' text := by
  constructor
  · have hfront : ZeroState.outside.Follows '*' := by
      unfold ZeroState.Follows
      decide
    unfold canonicalForm stripLeadingZeros
    rw [wholesTrimmed_iff, zeroBehind_stripZerosFrom hfront, zeroShielded_writeProducts]
    rfl
  · unfold canonicalForm stripLeadingZeros
    rw [runsBehind_stripZerosFrom, runsBehind_writeProducts]

/-- The zeros of `3,-007` stay. -/
theorem shielded_zeros_stay : ¬ WholesTrimmed (canonicalForm "3,-007".toList) := by
  intro htrimmed
  have hrun : IsRun ['3', '.', '-'] ['0', '0', '7'] [] :=
    ⟨List.cons_ne_nil _ _, by simp, by simp, by simp⟩
  rcases htrimmed _ _ _ (by decide) hrun (by decide) with h | h
  · exact absurd h (by decide)
  · exact absurd h (by decide)

/-- A letter or a closing bracket behind a comma shields nothing, for a product is written behind
it. -/
example : canonicalForm "3,x007+0,)007-0070,050".toList = "3.x*7+0.)*7-70.050".toList := by decide

end InkAlgebra

import Mathlib
import InkAlgebra.Proofs.Expression.Spelling

/-!
# Brackets around a term

A product or quotient that stands in a longer expression is taken apart by what stands in front of
it: what waits there for an operand gets hold of the first factor only. Whether brackets around the
whole make a difference is then a matter of what waits. A sum waits for the term as a whole. A
product or a sign gets hold of the first factor, but the result is the same, for both can be moved
out of products and quotients. A quotient or a power cannot.

Nothing is asked of the rest of the row; it need not be an expression, and where it is none, it is
none with brackets either.

§1 is what a row leaves open, §2 terms that are read on top of it, §3 what is moved out of products,
§4 brackets.
-/

open Polynomial

namespace InkAlgebra

/-! ## §1  What a row leaves open -/

/-- Whether a row cannot be parsed, whatever follows it. -/
def Unreadable (row : List Token) : Prop := ∀ rest, (toPostfix (row ++ rest)).toOption = none

/-- What a row leaves on the stack, and what of it goes out. -/
def Leaves (row out : List Token) (stack : List Pending) : Prop :=
  ∀ rest, toPostfix (row ++ rest) = (toPostfixFrom stack rest).map (out ++ ·)

theorem leaves_nil : Leaves [] [] [] := by
  intro rest
  show toPostfixFrom [] rest = _
  cases toPostfixFrom [] rest <;> rfl

theorem Unreadable.append {row : List Token} (h : Unreadable row) (more : List Token) :
    Unreadable (row ++ more) := by
  intro rest
  rw [List.append_assoc]
  exact h _

namespace Leaves

variable {row out : List Token} {stack : List Pending}

/-- One more token, by what it does to the stack. -/
theorem snoc (h : Leaves row out stack) {t : Token} (sent : List Token) {stack' : List Pending}
    (ht : ∀ rest, toPostfixFrom stack (t :: rest) = (toPostfixFrom stack' rest).map (sent ++ ·)) :
    Leaves (row ++ [t]) (out ++ sent) stack' := by
  intro rest
  rw [List.append_assoc, h]
  show (toPostfixFrom stack (t :: rest)).map _ = _
  rw [ht, map_append_map_append]

theorem op (h : Leaves row out stack) (o : Op) :
    Leaves (row ++ [.op o]) (out ++ (Pending.release o stack).1)
        (.op o :: (Pending.release o stack).2) :=
  h.snoc _ fun _ => rfl

theorem opening (h : Leaves row out stack) (c : Char) :
    Leaves (row ++ [.opening c]) (out ++ []) (.bracket c :: stack) := by
  apply h.snoc []
  intro rest
  show toPostfixFrom (.bracket c :: stack) rest = _
  cases toPostfixFrom (.bracket c :: stack) rest <;> rfl

theorem unknown (h : Leaves row out stack) (c : Char) : Unreadable (row ++ [.unknown c]) := by
  intro rest
  rw [List.append_assoc, h]
  rfl

end Leaves

/-- Every row is unreadable or leaves something on the stack, be it nothing. -/
theorem unreadable_or_leaves (row : List Token) :
    Unreadable row ∨ ∃ out stack, Leaves row out stack := by
  induction row using List.reverseRecOn with
  | nil => exact .inr ⟨[], [], leaves_nil⟩
  | append_singleton row t ih =>
      rcases ih with hnone | ⟨out, stack, h⟩
      · exact .inl (hnone.append [t])
      · cases t with
        | number text => exact .inr ⟨_, stack, h.snoc [.number text] fun _ => rfl⟩
        | letter c => exact .inr ⟨_, stack, h.snoc [.letter c] fun _ => rfl⟩
        | op o => exact .inr ⟨_, _, h.op o⟩
        | opening c => exact .inr ⟨_, _, h.opening c⟩
        | unknown c => exact .inl (h.unknown c)
        | closing c =>
            cases hclose : Pending.close? c stack with
            | some found =>
                right
                refine ⟨_, found.2, h.snoc found.1 ?_⟩
                intro rest
                rw [toPostfixFrom, hclose]
            | none =>
                left
                intro rest
                rw [List.append_assoc, h]
                show ((toPostfixFrom stack (.closing c :: rest)).map _).toOption = none
                rw [toPostfixFrom, hclose]
                rfl

/-- Whether nothing but products and signs waits for the next operand, up to a sum or an opening
bracket. -/
def Loose (stack : List Pending) : Prop :=
  ∃ (waiting : List Op) (below : List Pending), stack = waiting.map .op ++ below ∧
    (∀ o ∈ waiting, o = .mul ∨ o.isUnary = true) ∧
    ∀ o rest, below = .op o :: rest → o.precedence < 2

theorem loose_of_top {stack : List Pending}
    (h : ∀ o rest, stack = .op o :: rest → o.precedence < 2) : Loose stack :=
  ⟨[], stack, rfl, by simp, h⟩

theorem Loose.push {stack : List Pending} (h : Loose stack) {o : Op}
    (ho : o = .mul ∨ o.isUnary = true) :
    Loose (.op o :: stack) := by
  obtain ⟨waiting, below, rfl, hwaiting, hbelow⟩ := h
  exact ⟨o :: waiting, below, rfl, List.forall_mem_cons.2 ⟨ho, hwaiting⟩, hbelow⟩

theorem Pending.release_of_not_yieldsTo {next : Op} {stack : List Pending}
    (h : ∀ o below, stack = .op o :: below → yieldsTo o next = false) :
    release next stack = ([], stack) := by
  cases stack with
  | nil => rfl
  | cons x below =>
      cases x with
      | bracket c => rfl
      | op o =>
          rw [release, h o below rfl]
          rfl

/-- What is left below an operator does not give way to it. -/
theorem Pending.not_yieldsTo_release (next : Op) (stack : List Pending) {o : Op}
    {rest : List Pending} (h : (Pending.release next stack).2 = .op o :: rest) :
    Pending.yieldsTo o next = false := by
  induction stack with
  | nil => cases h
  | cons x stack ih =>
      cases x with
      | bracket c => cases h
      | op w =>
          rw [Pending.release] at h
          split at h
          · exact ih h
          · rename_i hstays
            cases h
            exact Bool.eq_false_iff.2 hstays

/-- A sum waits for whole terms. -/
theorem Leaves.loose_of_sum {row out : List Token} {stack : List Pending}
    (h : Leaves row out stack) {o : Op} (ho : o.precedence < 2) :
    ∃ out' stack', Leaves (row ++ [.op o]) out' stack' ∧ Loose stack' := by
  refine ⟨_, _, h.op o, loose_of_top ?_⟩
  intro w rest heq
  cases heq
  exact ho

theorem Leaves.loose_of_product {row out : List Token} {stack : List Pending}
    (h : Leaves row out stack) :
    ∃ out' stack', Leaves (row ++ [.op .mul]) out' stack' ∧ Loose stack' := by
  refine ⟨_, _, h.op .mul, (loose_of_top ?_).push (.inl rfl)⟩
  intro w rest heq
  have hstays := Pending.not_yieldsTo_release .mul stack heq
  revert hstays
  cases w <;> decide

theorem Leaves.loose_of_opening {row out : List Token} {stack : List Pending}
    (h : Leaves row out stack) (c : Char) :
    ∃ out' stack', Leaves (row ++ [.opening c]) out' stack' ∧ Loose stack' := by
  refine ⟨_, _, h.opening c, loose_of_top ?_⟩
  intro w rest heq
  cases heq

/-- A sign lets go of nothing. -/
theorem Leaves.loose_of_sign {row out : List Token} {stack : List Pending}
    (h : Leaves row out stack) (hloose : Loose stack) {o : Op} (ho : o.isUnary = true) :
    ∃ out' stack', Leaves (row ++ [.op o]) out' stack' ∧ Loose stack' := by
  have hrelease : Pending.release o stack = ([], stack) := by
    apply Pending.release_of_not_yieldsTo
    intro w below _
    revert ho
    cases o <;> cases w <;> decide
  refine ⟨_, _, h.op o, ?_⟩
  rw [hrelease]
  exact hloose.push (.inr ho)

/-- Whether a row cannot be parsed, or only products and signs wait behind it. -/
def EndsLoose (row : List Token) : Prop :=
  Unreadable row ∨ ∃ out stack, Leaves row out stack ∧ Loose stack

theorem endsLoose_nil : EndsLoose [] := .inr ⟨[], [], leaves_nil, loose_of_top (by simp)⟩

theorem EndsLoose.sign {row : List Token} (h : EndsLoose row) {o : Op} (ho : o.isUnary = true) :
    EndsLoose (row ++ [.op o]) := by
  rcases h with hnone | ⟨out, stack, h, hloose⟩
  · exact .inl (hnone.append _)
  · exact .inr (h.loose_of_sign hloose ho)

theorem endsLoose_opening (row : List Token) (c : Char) : EndsLoose (row ++ [.opening c]) := by
  rcases unreadable_or_leaves row with hnone | ⟨out, stack, h⟩
  · exact .inl (hnone.append _)
  · exact .inr (h.loose_of_opening c)

theorem endsLoose_unknown (row : List Token) (c : Char) : EndsLoose (row ++ [.unknown c]) := by
  rcases unreadable_or_leaves row with hnone | ⟨out, stack, h⟩
  · exact .inl (hnone.append _)
  · exact .inl (h.unknown c)

/-- Behind an operator that is no quotient and no power: a sign is as good as what is in front of
it. -/
theorem endsLoose_op (row : List Token) {o : Op} (htight : o ≠ .div ∧ o ≠ .pow)
    (hsign : o.isUnary = true → EndsLoose row) : EndsLoose (row ++ [.op o]) := by
  rcases unreadable_or_leaves row with hnone | ⟨out, stack, h⟩
  · exact .inl (hnone.append _)
  · cases o with
    | add | sub => exact .inr (h.loose_of_sum (by decide))
    | mul => exact .inr h.loose_of_product
    | div => exact absurd rfl htight.1
    | pow => exact absurd rfl htight.2
    | neg | pos => exact (hsign rfl).sign rfl

/-! ## §2  Terms on top of it -/

/-- Whether a token lets go of products and quotients in front of it. -/
def Token.isWeak : Token → Bool
  | op o => o.precedence ≤ 2
  | closing _ | unknown _ => true
  | _ => false

/-- Whether a row ends a term that stands in front of it. -/
def EndsTerm (rest : List Token) : Prop := ∀ t ∈ rest.head?, t.isWeak = true

namespace Pending

variable {waiting : List Op}

theorem release_append_of_yieldsTo {next : Op} (h : ∀ o ∈ waiting, yieldsTo o next = true)
    (stack : List Pending) :
    release next (waiting.map .op ++ stack) =
      (waiting.map Token.op ++ (release next stack).1, (release next stack).2) := by
  induction waiting with
  | nil => rfl
  | cons o waiting ih =>
      obtain ⟨ho, hrest⟩ := List.forall_mem_cons.1 h
      rw [List.map_cons, List.cons_append, release, if_pos ho, ih hrest]
      rfl

theorem close?_map_append (c : Char) (waiting : List Op) (stack : List Pending) :
    close? c (waiting.map .op ++ stack) =
      (close? c stack).map fun found => (waiting.map Token.op ++ found.1, found.2) := by
  induction waiting with
  | nil =>
      rw [List.map_nil, List.nil_append]
      cases close? c stack <;> rfl
  | cons o waiting ih =>
      rw [List.map_cons, List.cons_append, close?, ih, Option.map_map]
      rfl

theorem finish_map_append (waiting : List Op) (stack : List Pending) :
    finish (waiting.map .op ++ stack) = (finish stack).map (waiting.map Token.op ++ ·) := by
  induction waiting with
  | nil =>
      rw [List.map_nil, List.nil_append]
      cases finish stack <;> rfl
  | cons o waiting ih =>
      rw [List.map_cons, List.cons_append, finish, ih]
      cases finish stack <;> rfl

end Pending

/-- What ends a term lets go of everything in it. -/
theorem toPostfixFrom_of_endsTerm {waiting : List Op} (hwaiting : ∀ o ∈ waiting, 2 ≤ o.precedence)
    {rest : List Token} (hrest : EndsTerm rest) (stack : List Pending) :
    toPostfixFrom (waiting.map .op ++ stack) rest =
      (toPostfixFrom stack rest).map (waiting.map Token.op ++ ·) := by
  cases rest with
  | nil => exact Pending.finish_map_append waiting stack
  | cons t rest =>
      have hweak : t.isWeak = true := hrest t rfl
      cases t with
      | op next =>
          have hyields : ∀ o ∈ waiting, Pending.yieldsTo o next = true := by
            intro o ho
            have htight := hwaiting o ho
            revert hweak htight
            cases o <;> cases next <;> decide
          rw [toPostfixFrom, toPostfixFrom, Pending.release_append_of_yieldsTo hyields]
          exact (map_append_map_append _ _ _).symm
      | closing c =>
          rw [toPostfixFrom, toPostfixFrom, Pending.close?_map_append]
          cases Pending.close? c stack with
          | none => rfl
          | some found => exact (map_append_map_append _ _ _).symm
      | unknown c => rfl
      | number _ | letter _ | opening _ => cases hweak

/-- The postfix of further factors, each with the operation in front of it. -/
def furtherRow (factors : List (Operation × Expr)) : List Token :=
  factors.flatMap fun f => f.2.postorder ++ [.op f.1.op]

/-- A unary phrase goes out as a whole before what waits for it. -/
theorem toPostfixFrom_unary {row : List Token} {e : Expr} (h : Derives .unary row e)
    {waiting : List Op} (hwaiting : ∀ o ∈ waiting, 2 ≤ o.precedence) {rest : List Token}
    (hrest : EndsTerm rest) (below : List Pending) :
    toPostfixFrom (waiting.map .op ++ below) (row ++ rest) =
      (toPostfixFrom below rest).map (e.postorder ++ waiting.map Token.op ++ ·) := by
  obtain ⟨out, inside, hpost, hfloor, hrun⟩ :=
    reads_of_derives h (waiting.map .op ++ below) rest (Phrase.fitsOn_of_three_le (by decide) _)
  have htight : ∀ o ∈ inside ++ waiting, 2 ≤ o.precedence := by
    intro o ho
    rcases List.mem_append.1 ho with ho | ho
    · exact Nat.le_of_succ_le (hfloor o ho)
    · exact hwaiting o ho
  rw [hrun, ← List.append_assoc, ← List.map_append, toPostfixFrom_of_endsTerm htight hrest,
    map_append_map_append, ← hpost]
  simp only [List.map_append, List.append_assoc]

/-- **A term in a row.** Its first factor goes out before what waits for an operand, its further
factors behind. -/
theorem exists_factors_of_term {row : List Token} {e : Expr} (h : Derives .term row e) :
    ∃ (a : Expr) (factors : List (Operation × Expr)),
      e.postorder = a.postorder ++ furtherRow factors ∧
      (∀ f ∈ factors, f.1 = .mul ∨ f.1 = .div) ∧
      ∀ {waiting : List Op} {below : List Pending} {rest : List Token},
        (∀ o ∈ waiting, 2 ≤ o.precedence) →
        (∀ o more, below = .op o :: more → o.precedence < 2) → EndsTerm rest →
          toPostfixFrom (waiting.map .op ++ below) (row ++ rest) =
            (toPostfixFrom below rest).map
              (a.postorder ++ waiting.map Token.op ++ furtherRow factors ++ ·) := by
  generalize hp : Phrase.term = p at h
  -- down the left sides of the products to the first factor, which is what `waiting` gets hold of
  induction h with
  | @ofUnary row a hunary _ =>
      refine ⟨a, [], (List.append_nil _).symm, by simp, ?_⟩
      intro waiting below rest hwaiting _ hrest
      rw [toPostfixFrom_unary hunary hwaiting hrest]
      simp [furtherRow]
  | @product left right _ b o _ ho hright ihLeft _ =>
      obtain ⟨a, factors, hpost, hkinds, hrun⟩ := ihLeft rfl
      have hrow : furtherRow (factors ++ [(o, b)]) =
          furtherRow factors ++ (b.postorder ++ [.op o.op]) := by
        simp [furtherRow]
      refine ⟨a, factors ++ [(o, b)], ?_, ?_, ?_⟩
      · rw [Expr.postorder, hpost, hrow]
        simp
      · intro f hf
        rcases List.mem_append.1 hf with hf | hf
        · exact hkinds f hf
        · rw [List.mem_singleton.1 hf]
          exact ho
      · intro waiting below rest hwaiting hbelow hrest
        have htwo : o.op.precedence = 2 := by
          rcases ho with rfl | rfl <;> rfl
        have hends : EndsTerm (.op o.op :: (right ++ rest)) := by
          intro t ht
          cases ht
          exact decide_eq_true htwo.le
        have hrelease : Pending.release o.op below = ([], below) := by
          apply Pending.release_of_not_yieldsTo
          intro w more hw
          have hloose := hbelow w more hw
          rcases ho with rfl | rfl <;> revert hloose <;> cases w <;> decide
        have hproduct : toPostfixFrom below (.op o.op :: (right ++ rest)) =
            (toPostfixFrom below rest).map (b.postorder ++ [.op o.op] ++ ·) := by
          have hlast : toPostfixFrom (.op o.op :: below) (right ++ rest) =
              (toPostfixFrom below rest).map (b.postorder ++ [.op o.op] ++ ·) :=
            toPostfixFrom_unary hright (List.forall_mem_singleton.2 htwo.ge) hrest below
          rw [toPostfixFrom, hrelease]
          dsimp only
          rw [hlast, map_append_map_append]
          rfl
        rw [List.append_assoc, List.cons_append, hrun hwaiting hbelow hends, hproduct,
          map_append_map_append, hrow]
        simp only [List.append_assoc]
  | _ => cases hp

/-! ## §3  Further factors -/

/-- A value multiplied and divided by further factors. -/
def Meaning.further {ε β : Type} (m : Meaning ε β) (v : β) : List (Operation × Expr) → Except ε β
  | [] => .ok v
  | (o, e) :: factors => do
    let w ← m.value e
    m.further (← m.binary o.op v w) factors

theorem Meaning.runFrom_furtherRow {ε β : Type} (m : Meaning ε β)
    (factors : List (Operation × Expr)) (v : β) (stack : List β) (rest : List Token) :
    m.runFrom (v :: stack) (furtherRow factors ++ rest) =
      (m.further v factors).bind fun w => m.runFrom (w :: stack) rest := by
  induction factors generalizing v with
  | nil => rfl
  | cons f factors ih =>
      obtain ⟨o, e⟩ := f
      have hrow : furtherRow ((o, e) :: factors) ++ rest =
          e.postorder ++ (.op o.op :: (furtherRow factors ++ rest)) := by
        simp [furtherRow]
      rw [hrow, runFrom_postorder, further]
      cases m.value e with
      | error x => rfl
      | ok w =>
          show m.runFrom (w :: v :: stack) (.op o.op :: (furtherRow factors ++ rest)) =
            ((m.binary o.op v w).bind fun u => m.further u factors).bind _
          simp only [runFrom, Operation.isUnary_op]
          cases m.binary o.op v w with
          | error x => rfl
          | ok u => exact ih u

open Exact

variable {K : Type} [Field K] [LinearOrder K] [FloorRing K]

/-- Whether something that is done to a factor can be done to the product instead. A quotient by a
constant is a product as well. -/
def MovesOut (f : K[X] → K[X]) : Prop := ∀ q r, f q * r = f (q * r)

omit [LinearOrder K] [FloorRing K] in
theorem movesOut_mul (q : K[X]) : MovesOut (q * ·) := fun _ _ => mul_assoc _ _ _

omit [LinearOrder K] [FloorRing K] in
theorem movesOut_neg : MovesOut (Neg.neg : K[X] → K[X]) := fun _ _ => neg_mul _ _

omit [LinearOrder K] [FloorRing K] in
theorem movesOut_id : MovesOut (id : K[X] → K[X]) := fun _ _ => rfl

/-- What can be moved out of a product is moved out of further factors. -/
theorem MovesOut.further {f : K[X] → K[X]} (hf : MovesOut f) (cap : ℕ)
    {factors : List (Operation × Expr)} (hkinds : ∀ x ∈ factors, x.1 = .mul ∨ x.1 = .div)
    (v : K[X]) :
    (formalMeaning cap).further (f v) factors = ((formalMeaning cap).further v factors).map f := by
  induction factors generalizing v with
  | nil => rfl
  | cons x factors ih =>
      obtain ⟨o, e⟩ := x
      obtain ⟨ho, hrest⟩ := List.forall_mem_cons.1 hkinds
      rw [Meaning.further, Meaning.further]
      cases (formalMeaning (K := K) cap).value e with
      | error x => rfl
      | ok w =>
          have hstep : (formalMeaning cap).binary o.op (f v) w =
              ((formalMeaning cap).binary o.op v w).map f := by
            rcases ho with rfl | rfl
            · exact congrArg Except.ok (hf v w)
            · simp only [formalMeaning, Operation.op]
              split
              · exact congrArg Except.ok (hf v _)
              · rfl
          show ((formalMeaning cap).binary o.op (f v) w).bind _ =
            (((formalMeaning cap).binary o.op v w).bind _).map f
          rw [hstep]
          cases (formalMeaning cap).binary o.op v w with
          | error x => rfl
          | ok u => exact ih hrest u

/-! ## §4  Brackets -/

/-- **Products and signs** that take the first factor come to the same as where they take them
all. -/
theorem runFrom_furtherRow_comm (cap : ℕ) {factors : List (Operation × Expr)}
    (hkinds : ∀ f ∈ factors, f.1 = .mul ∨ f.1 = .div) {waiting : List Op}
    (hwaiting : ∀ o ∈ waiting, o = .mul ∨ o.isUnary = true) (v : K[X]) (stack : List K[X])
    (rest : List Token) :
    (formalMeaning cap).runFrom (v :: stack) (waiting.map .op ++ (furtherRow factors ++ rest)) =
      (formalMeaning cap).runFrom (v :: stack)
      (furtherRow factors ++ (waiting.map .op ++ rest)) := by
  induction waiting generalizing v stack with
  | nil => rfl
  | cons o waiting ih =>
      obtain ⟨ho, hrest⟩ := List.forall_mem_cons.1 hwaiting
      -- what is moved out, on a stack below and with a tail of postfix behind
      have hmoved : ∀ {f : K[X] → K[X]} (below : List K[X]), MovesOut f →
          (∀ u more, (formalMeaning cap).runFrom (u :: stack) (.op o :: more) =
            (formalMeaning cap).runFrom (f u :: below) more) →
          (formalMeaning cap).runFrom (v :: stack)
              ((o :: waiting).map .op ++ (furtherRow factors ++ rest)) =
            (formalMeaning cap).runFrom (v :: stack)
              (furtherRow factors ++ ((o :: waiting).map .op ++ rest)) := by
        intro f below hf hrun
        rw [List.map_cons, List.cons_append, hrun, ih hrest, Meaning.runFrom_furtherRow,
          Meaning.runFrom_furtherRow, hf.further cap hkinds]
        cases (formalMeaning cap).further v factors with
        | error e => rfl
        | ok w => exact (hrun w _).symm
      rcases ho with rfl | hunary
      · cases stack with
        | cons u below => exact hmoved below (movesOut_mul u) fun _ _ => rfl
        | nil =>
            -- the product lacks an operand on both sides
            rw [Meaning.runFrom_furtherRow]
            cases (formalMeaning cap).further v factors <;> rfl
      · cases o with
        | neg =>
            apply hmoved stack movesOut_neg
            intro u more
            simp only [Meaning.runFrom]
            rfl
        | pos =>
            apply hmoved stack movesOut_id
            intro u more
            simp only [Meaning.runFrom]
            rfl
        | add | sub | mul | div | pow => cases hunary

theorem Unreadable.formalValue_eq {front : List Token} (h : Unreadable front) (cap : ℕ)
    (rest : List Token) : formalValue (K := K) cap (front ++ rest) = .error () := by
  have hnone := h rest
  unfold formalValue
  cases hpost : toPostfix (front ++ rest) with
  | error e => rfl
  | ok post =>
      rw [hpost] at hnone
      cases hnone

/-- **Brackets.** Around a term they make no difference where only products and signs wait for it,
and where what follows ends a term. -/
theorem formalValue_bracketed (cap : ℕ) {front row behind : List Token} {e : Expr}
    (hfront : EndsLoose front) (hrow : Derives .term row e) (hbehind : EndsTerm behind) :
    formalValue (K := K) cap (front ++ (row ++ behind)) =
      formalValue cap (front ++ (.opening '(' :: row ++ [.closing ')'] ++ behind)) := by
  rcases hfront with hnone | ⟨out, stack, hfront, waiting, below, rfl, hwaiting, hbelow⟩
  · rw [hnone.formalValue_eq, hnone.formalValue_eq]
  have htight : ∀ o ∈ waiting, 2 ≤ o.precedence := by
    intro o ho
    have hkind := hwaiting o ho
    revert hkind
    cases o <;> decide
  obtain ⟨a, factors, hpost, hkinds, hrun⟩ := exists_factors_of_term hrow
  have hpair : ('(', ')') ∈ bracketPairs := by decide
  have hunary : Derives .unary (.opening '(' :: row ++ [.closing ')']) e :=
    .ofPower (.ofAtom (.bracket hpair (.ofTerm hrow)))
  unfold formalValue
  rw [hfront, hfront, hrun htight hbelow hbehind, toPostfixFrom_unary hunary htight hbehind, hpost,
    map_append_map_append, map_append_map_append]
  cases toPostfixFrom below behind with
  | error e => rfl
  | ok rest =>
      show (formalMeaning cap).runFrom [] _ = (formalMeaning cap).runFrom [] _
      simp only [List.append_assoc]
      apply Meaning.runFrom_append_congr
      intro stack
      rw [Meaning.runFrom_postorder, Meaning.runFrom_postorder]
      cases (formalMeaning (K := K) cap).value a with
      | error e => rfl
      | ok v => exact runFrom_furtherRow_comm cap hkinds hwaiting v stack rest

end InkAlgebra

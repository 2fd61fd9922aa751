import Mathlib
import InkAlgebra.Proofs.Equation.Sides

/-!
# Texts in brackets

A text that is accepted for itself can be put in round brackets and used as an operand, and it means
there what it means alone. Nothing is asked of the text but that it is accepted: it need not be a
phrase of the grammar.

The three passes over a text are taken one by one. The tokens of a text do not depend on what stands
behind a bracket that closes it; the parser works above the opening bracket as it does above
nothing; the machine works on top of other values as it does on none.

§1 are the three passes, §2 is two bracketed texts with an operation between them.
-/

namespace InkAlgebra

/-! ## §1  Three passes -/

theorem consNumeric_append_cons {t : Token} (ht : ∀ text, t ≠ .number text) (c : Char)
    (row behind : List Token) :
    Token.consNumeric c (row ++ t :: behind) = Token.consNumeric c row ++ t :: behind := by
  cases row with
  | nil => exact consNumeric_of_ne_number c behind ht
  | cons s row => cases s <;> rfl

/-- A closing bracket ends the tokens before it. -/
theorem tokenizeFrom_append_closing (signExpected : Bool) (text rest : List Char) :
    tokenizeFrom signExpected (text ++ ')' :: rest) =
      tokenizeFrom signExpected text ++ .closing ')' :: tokenizeFrom false rest := by
  induction text generalizing signExpected with
  | nil => rfl
  | cons c text ih =>
      cases hc : isNumeric c with
      | true =>
          rw [List.cons_append, tokenizeFrom_of_isNumeric _ _ hc,
            tokenizeFrom_of_isNumeric _ _ hc, ih]
          exact consNumeric_append_cons (fun _ => Token.noConfusion) c _ _
      | false =>
          rw [List.cons_append, tokenizeFrom_of_not_isNumeric _ _ hc,
            tokenizeFrom_of_not_isNumeric _ _ hc, ih]
          rfl

/-- Behind an opening bracket the tokens start anew. -/
theorem tokenizeFrom_bracketed (signExpected : Bool) (text rest : List Char) :
    tokenizeFrom signExpected ('(' :: (text ++ ')' :: rest)) =
      .opening '(' :: (tokenize text ++ .closing ')' :: tokenizeFrom false rest) := by
  rw [tokenizeFrom_of_not_isNumeric _ _ (by decide)]
  exact congrArg (.opening '(' :: ·) (tokenizeFrom_append_closing true text rest)

namespace Pending

variable {stack below : List Pending} {out : List Token}

/-- What is open below a bracket does not matter to the operator above it. -/
theorem release_append_bracket (next : Op) (stack below : List Pending) (b : Char) :
    release next (stack ++ .bracket b :: below) =
      ((release next stack).1, (release next stack).2 ++ .bracket b :: below) := by
  induction stack with
  | nil => rfl
  | cons x stack ih =>
      cases x with
      | bracket c => rfl
      | op o =>
          rw [List.cons_append, release, release, ih]
          split <;> rfl

theorem close?_append_bracket {c : Char} (h : close? c stack = some (out, below))
    (more : List Pending) :
    close? c (stack ++ more) = some (out, below ++ more) := by
  induction stack generalizing out with
  | nil => cases h
  | cons x stack ih =>
      cases x with
      | bracket d =>
          rw [close?] at h
          split at h
          · rename_i hd
            cases h
            rw [List.cons_append, close?, if_pos hd]
          · cases h
      | op o =>
          rw [close?, Option.map_eq_some_iff] at h
          obtain ⟨⟨out', below'⟩, hclose, heq⟩ := h
          cases heq
          rw [List.cons_append, close?, ih hclose]
          rfl

/-- What goes out at the end of a row goes out at a closing bracket too. -/
theorem close?_of_finish (h : finish stack = .ok out) (below : List Pending) :
    close? ')' (stack ++ .bracket '(' :: below) = some (out, below) := by
  induction stack generalizing out with
  | nil =>
      cases h
      rfl
  | cons x stack ih =>
      cases x with
      | bracket c => cases h
      | op o =>
          obtain ⟨out', hfinish, rfl⟩ := exists_of_map_eq_ok h
          rw [List.cons_append, close?, ih hfinish]
          rfl

end Pending

/-- **Parsing in brackets.** What is accepted above nothing is accepted above an opening bracket, up
to the bracket that closes it, and leaves nothing on the stack. -/
theorem toPostfixFrom_append_closing (stack : List Pending) {row out : List Token}
    (h : toPostfixFrom stack row = .ok out) (below : List Pending) (rest : List Token) :
    toPostfixFrom (stack ++ .bracket '(' :: below) (row ++ .closing ')' :: rest) =
      (toPostfixFrom below rest).map (out ++ ·) := by
  induction row generalizing stack out with
  | nil =>
      rw [List.nil_append, toPostfixFrom, Pending.close?_of_finish h]
  | cons t row ih =>
      cases t with
      | opening c => exact ih (.bracket c :: stack) h
      | unknown c => cases h
      | number text | letter c =>
          obtain ⟨out', hrow, rfl⟩ := exists_of_map_eq_ok h
          show (toPostfixFrom _ (row ++ .closing ')' :: rest)).map _ = _
          rw [ih _ hrow]
          exact map_append_map_append [_] out' _
      | op o =>
          obtain ⟨out', hrow, rfl⟩ := exists_of_map_eq_ok h
          rw [List.cons_append, toPostfixFrom, Pending.release_append_bracket]
          dsimp only
          rw [← List.cons_append, ih _ hrow, map_append_map_append]
      | closing c =>
          rw [toPostfixFrom] at h
          cases hclose : Pending.close? c stack with
          | none =>
              rw [hclose] at h
              cases h
          | some found =>
              obtain ⟨released, stack'⟩ := found
              rw [hclose] at h
              obtain ⟨out', hrow, rfl⟩ := exists_of_map_eq_ok h
              rw [List.cons_append, toPostfixFrom, Pending.close?_append_bracket hclose]
              dsimp only
              rw [ih _ hrow, map_append_map_append]

namespace Meaning

variable {ε β : Type} {m : Meaning ε β}

/-- **Running on top of values.** A run that ends in one value ends, on top of other values, with
the value above them. -/
theorem runFrom_append {stack : List β} {row : List Token} {v : β} (h : m.runFrom stack row = .ok v)
    (below : List β) (rest : List Token) :
    m.runFrom (stack ++ below) (row ++ rest) = m.runFrom (v :: below) rest := by
  induction row generalizing stack with
  | nil =>
      rw [eq_of_runFrom_nil h]
      rfl
  | cons t row ih =>
      cases t with
      | op o =>
          cases hunary : o.isUnary with
          | true =>
              obtain ⟨a, stack', rfl, hrun⟩ := exists_of_runFrom_unary hunary h
              rw [← ih hrun]
              simp [runFrom, hunary]
          | false =>
              obtain ⟨a, b, stack', w, rfl, hw, hrun⟩ := exists_of_runFrom_binary hunary h
              rw [← ih hrun]
              simp only [List.cons_append, runFrom, hunary, hw]
              rfl
      | number _ | letter _ | opening _ | closing _ | unknown _ =>
          rw [runFrom_operand (by simp)] at h
          obtain ⟨w, hw, hrun⟩ := exists_of_bind_eq_ok h
          rw [List.cons_append, runFrom_operand (by simp), hw, ← ih hrun]
          rfl

end Meaning

/-! ## §2  Two operands -/

/-- The text of an operation on two bracketed texts. -/
def operationText (o : Operation) (left right : List Char) : List Char :=
  '(' :: (left ++ ')' :: ((Token.op o.op).source ++ '(' :: (right ++ [')'])))

theorem tokenize_operationText (o : Operation) (left right : List Char) :
    tokenize (operationText o left right) =
      .opening '(' :: (tokenize left ++ .closing ')' :: .op o.op ::
        .opening '(' :: (tokenize right ++ [.closing ')'])) := by
  rw [tokenize, operationText, tokenizeFrom_bracketed, tokenizeFrom_operation,
    tokenizeFrom_bracketed]
  rfl

/-- The operands go out one after the other, and the operation behind them. -/
theorem infixToPostfix_operationText {o : Operation} {left right : List Char}
    {leftPost rightPost : List Token} (hleft : infixToPostfix left = .ok leftPost)
    (hright : infixToPostfix right = .ok rightPost) :
    infixToPostfix (operationText o left right) = .ok (leftPost ++ (rightPost ++ [.op o.op])) := by
  have hclosed : toPostfixFrom [.bracket '(', .op o.op] (tokenize right ++ [.closing ')']) =
      .ok (rightPost ++ [.op o.op]) :=
    toPostfixFrom_append_closing [] hright [.op o.op] []
  calc toPostfix (tokenize (operationText o left right))
      = (toPostfixFrom [] (.op o.op :: .opening '(' :: (tokenize right ++ [.closing ')']))).map
          (leftPost ++ ·) := by
        rw [tokenize_operationText]
        exact toPostfixFrom_append_closing [] hleft [] _
    _ = ((toPostfixFrom [.bracket '(', .op o.op]
            (tokenize right ++ [.closing ')'])).map ([] ++ ·)).map (leftPost ++ ·) := rfl
    _ = .ok (leftPost ++ (rightPost ++ [.op o.op])) := by
        rw [hclosed]
        rfl

theorem Meaning.run_operation {ε β : Type} {m : Meaning ε β} (o : Operation)
    {left right : List Token} {a b : β} (hleft : m.run left = .ok a)
    (hright : m.run right = .ok b) :
    m.run (left ++ (right ++ [.op o.op])) = m.binary o.op a b := by
  have hlast : m.runFrom [b, a] [.op o.op] = m.binary o.op a b := by
    simp only [runFrom, Operation.isUnary_op]
    cases m.binary o.op a b <;> rfl
  calc m.run (left ++ (right ++ [Token.op o.op]))
      = m.runFrom [a] (right ++ [Token.op o.op]) := runFrom_append hleft [] _
    _ = m.runFrom [b, a] [Token.op o.op] := runFrom_append hright [a] _
    _ = m.binary o.op a b := hlast

/-- **Operands.** Two accepted texts in brackets with an operation between them are worth what the
operation makes of their values, or fail as the operation does. -/
theorem ofExpression_operationText {α : Type} [Coefficient α] {maxDegree : UInt32} (o : Operation)
    {left right : List Char} {p q : Polynomial α}
    (hleft : Polynomial.ofExpression maxDegree left = .ok p)
    (hright : Polynomial.ofExpression maxDegree right = .ok q) :
    Polynomial.ofExpression maxDegree (operationText o left right) =
      (Polynomial.meaning maxDegree).binary o.op p q := by
  obtain ⟨leftPost, hleftPost, hleftRun⟩ := exists_run_of_ofExpression hleft
  obtain ⟨rightPost, hrightPost, hrightRun⟩ := exists_run_of_ofExpression hright
  rw [Polynomial.ofExpression, infixToPostfix_operationText hleftPost hrightPost]
  exact Meaning.run_operation o hleftRun hrightRun

end InkAlgebra

/-!
# What can go wrong

Three kinds of failure, all of them ordinary results: a text that is no expression, an expression
that is no solvable polynomial in one variable, and a limit that was passed. Each is recorded as its
cause; wording is a matter of two functions. Causes that name a number are written with whatever
writes numbers, hence the parameter.

Apart from these, a run can break off: arithmetic of machine words is checked, and where a result
has no room in a word there is no result at all, neither of the operation nor of what asked for it.
-/

namespace InkAlgebra

/-- Why a text is no expression. -/
inductive SyntaxError where
  /-- A closing bracket with no opening bracket of its kind to close. -/
  | unmatchedClose (bracket : Char)
  /-- A token that has no meaning in an expression, or a number that is none. -/
  | unsupported (token : List Char)
  /-- A bracket left open, an operator without its operands, or operands without an operator. -/
  | malformed
deriving DecidableEq, Repr

/-- Why an expression has no roots to look for, or why they were not found. -/
inductive EvaluationError (α : Type) where
  | divisorNotConstant
  | divisionByZero
  | exponentNotConstant
  | fractionalPower (exponent : α)
  | negativePower (exponent : α)
  | severalVariables
  | epsilonOutOfRange (epsilon : α)
  | noConvergence
deriving DecidableEq, Repr

/-- A limit on nesting or on a degree, and what went beyond it. -/
structure LimitPassed where
  depth : Nat
  limit : Nat
deriving DecidableEq, Repr

inductive EquationError (α : Type) where
  | unreadable (cause : SyntaxError)
  | unsolvable (cause : EvaluationError α)
  | tooComplex (cause : LimitPassed)
deriving DecidableEq, Repr

/-- How a computation ends without a result. -/
inductive Halt (ε : Type) where
  /-- A sum or difference of machine words left their range. No caller takes up from here. -/
  | overflow
  /-- The computation failed, and its caller gets to know why. -/
  | failed (cause : ε)
deriving DecidableEq, Repr

namespace SyntaxError

def reason : SyntaxError → String
  | unmatchedClose c => "Cannot find corresponding opening bracket of: " ++ c.toString
  | unsupported token => "Token is not supported: " ++ String.ofList token
  | malformed => "Invalid expression"

end SyntaxError

namespace EvaluationError

variable {α : Type}

def reason (write : α → List Char) : EvaluationError α → String
  | divisorNotConstant => "Denominator must be a number"
  | divisionByZero => "Divided by zero"
  | exponentNotConstant => "Power must be a number"
  | fractionalPower p => "Not integer power is not supported: " ++ String.ofList (write p)
  | negativePower p => "Negative power is not supported: " ++ String.ofList (write p)
  | severalVariables => "More than one variable is not supported"
  | epsilonOutOfRange e => "Epsilon must lie in (0, 1), got " ++ String.ofList (write e)
  | noConvergence => "Root search did not converge"

end EvaluationError

namespace EquationError

variable {α : Type}

def description (write : α → List Char) : EquationError α → String
  | unreadable cause => "syntax error: " ++ cause.reason
  | unsolvable cause => "evaluation error: " ++ cause.reason write
  | tooComplex ⟨depth, limit⟩ =>
    "expression too complex (depth " ++ toString depth ++ " exceeds limit " ++ toString limit ++ ")"

def userMessage (write : α → List Char) : EquationError α → String
  | unreadable _ => "Unrecognized expression"
  | unsolvable cause => cause.reason write
  | tooComplex _ => "Maximum power exceeded"

end EquationError

/-! ## Failures of a run -/

namespace Halt

variable {α : Type}

@[match_pattern] abbrev unreadable (cause : SyntaxError) : Halt (EquationError α) :=
  failed (.unreadable cause)

@[match_pattern] abbrev unsolvable (cause : EvaluationError α) : Halt (EquationError α) :=
  failed (.unsolvable cause)

@[match_pattern] abbrev tooComplex (cause : LimitPassed) : Halt (EquationError α) :=
  failed (.tooComplex cause)

/-- Whether a run broke off can be told from its result, whatever results there are. -/
instance decidableEqOverflow {ε β : Type} :
    (x : Except (Halt ε) β) → Decidable (x = .error .overflow)
  | .ok _ => .isFalse nofun
  | .error .overflow => .isTrue rfl
  | .error (.failed _) => .isFalse nofun

end Halt

/-! ## Results in sequence -/

/-- What succeeds in two steps succeeds in each. -/
theorem exists_of_bind_eq_ok {ε β γ : Type} {x : Except ε β} {f : β → Except ε γ} {c : γ}
    (h : x >>= f = .ok c) : ∃ b, x = .ok b ∧ f b = .ok c := by
  cases x with
  | error e => cases h
  | ok b => exact ⟨b, rfl, h⟩

/-- What fails in two steps fails in one of them. -/
theorem exists_of_bind_eq_error {ε β γ : Type} {x : Except ε β} {f : β → Except ε γ} {e : ε}
    (h : x >>= f = .error e) : x = .error e ∨ ∃ b, x = .ok b ∧ f b = .error e := by
  cases x with
  | error e' =>
      obtain rfl := Except.error.inj h
      exact .inl rfl
  | ok b => exact .inr ⟨b, rfl, h⟩

/-- Two steps succeed if the first does and the second does on its result. -/
theorem exists_bind_eq_ok {ε β γ : Type} {x : Except ε β} {f : β → Except ε γ} (hx : ∃ b, x = .ok b)
    (hf : ∀ b, x = .ok b → ∃ c, f b = .ok c) : ∃ c, x >>= f = .ok c := by
  obtain ⟨b, rfl⟩ := hx
  exact hf b rfl

theorem exists_of_map_eq_ok {ε β γ : Type} {x : Except ε β} {f : β → γ} {c : γ}
    (h : x.map f = .ok c) : ∃ b, x = .ok b ∧ f b = c := by
  cases x with
  | error e => cases h
  | ok b => exact ⟨b, rfl, Except.ok.inj h⟩

theorem exists_map_eq_ok {ε β γ : Type} {x : Except ε β} (f : β → γ) (h : ∃ v, x = .ok v) :
    ∃ w, x.map f = .ok w := by
  obtain ⟨v, rfl⟩ := h
  exact ⟨f v, rfl⟩

theorem exists_eq_ok_of_isOk {ε β : Type} {x : Except ε β} (h : x.isOk = true) :
    ∃ b, x = .ok b := by
  cases x with
  | error e => cases h
  | ok b => exact ⟨b, rfl⟩

theorem eq_ok_of_toOption {ε β : Type} {x : Except ε β} {v : β} (h : x.toOption = some v) :
    x = .ok v := by
  cases x with
  | error e => cases h
  | ok w => exact congrArg Except.ok (Option.some.inj h)

theorem eq_ok_of_mapError {ε ε' β : Type} {f : ε → ε'} {x : Except ε β} {v : β}
    (h : x.mapError f = .ok v) : x = .ok v := by
  cases x with
  | error e => cases h
  | ok w => exact congrArg Except.ok (Except.ok.inj h)

theorem exists_of_mapError_eq_error {ε ε' β : Type} {f : ε → ε'} {x : Except ε β} {e : ε'}
    (h : x.mapError f = .error e) : ∃ cause, x = .error cause ∧ e = f cause := by
  cases x with
  | error cause => exact ⟨cause, rfl, (Except.error.inj h).symm⟩
  | ok v => cases h

/-- If the first step gives a changed result, and the second one changes its own in another way, so
do both. -/
theorem bind_eq_map_bind {ε β β' γ γ' : Type} {x : Except ε β} {x' : Except ε β'}
    {step : β → Except ε γ} {step' : β' → Except ε γ'} {f : β → β'} {g : γ → γ'}
    (hx : x' = x.map f) (hstep : ∀ b, step' (f b) = (step b).map g) :
    x' >>= step' = (x >>= step).map g := by
  subst hx
  cases x with
  | error e => rfl
  | ok b => exact hstep b

end InkAlgebra

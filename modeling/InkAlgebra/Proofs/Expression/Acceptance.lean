import Mathlib
import InkAlgebra.Expression.Canonical
import InkAlgebra.Proofs.Expression.Parsing

/-!
# What the parser accepts

The parser never asks whether a row of tokens makes sense. Brackets that do not fit stop it, and the
rest is left to the machine that runs the postfix, which only counts: every operand adds a value,
every operation takes one away, and one has to remain.

The count is enough for rows in which no two operands stand side by side. Read from left to right
such a row is at every place either before an operand or behind one. An operation before an operand,
or a bracket that closes there, makes the count too small by one, and nothing can make up for it; so
a row with the right count is in order throughout (`Spaced.inOrder`). In a row where operands stand
side by side the two faults can cancel out.

§1 is the machine and its count, §2 what the conversion keeps of tokens and of brackets, §3 the
order. §4 derives rows that are in order. What this says of texts is the subject of
`Proofs.Expression.Adjacency`.
-/

namespace InkAlgebra

/-! ## §1  The machine and its count -/

/-- What a token does to the number of values on the stack. -/
def Token.weight : Token → ℤ
  | number _ | letter _ => 1
  | op o => if o.isUnary then 0 else -1
  | opening _ | closing _ | unknown _ => 0

def excess (row : List Token) : ℤ := (row.map Token.weight).sum

@[simp] theorem excess_nil : excess [] = 0 := rfl

@[simp] theorem excess_cons (t : Token) (row : List Token) :
    excess (t :: row) = t.weight + excess row := by
  simp [excess]

@[simp] theorem excess_append (front back : List Token) :
    excess (front ++ back) = excess front + excess back := by
  simp [excess]

/-- Whether a token can stand in a postfix. -/
def Token.isPlaced : Token → Bool
  | number _ | letter _ | op _ => true
  | opening _ | closing _ | unknown _ => false

theorem excess_filter_isPlaced (row : List Token) :
    excess (row.filter Token.isPlaced) = excess row := by
  induction row with
  | nil => rfl
  | cons t rest ih =>
      rw [excess_cons, ← ih]
      cases t with
      | number text | letter c | op o => exact excess_cons _ _
      | opening c | closing c | unknown c => exact (zero_add _).symm

namespace Meaning

variable {ε β : Type} {m : Meaning ε β} {stack : List β} {rest : List Token} {v : β}

theorem runFrom_operand {t : Token} (ht : ∀ o, t ≠ .op o) :
    m.runFrom stack (t :: rest) = m.operand t >>= fun w => m.runFrom (w :: stack) rest := by
  cases t with
  | op o => exact absurd rfl (ht o)
  | number _ | letter _ | opening _ | closing _ | unknown _ => simp only [runFrom]

/-- A sign needs a value on the stack. -/
theorem exists_of_runFrom_unary {o : Op} (ho : o.isUnary = true)
    (h : m.runFrom stack (.op o :: rest) = .ok v) :
    ∃ a below, stack = a :: below ∧ m.runFrom (m.unary o a :: below) rest = .ok v := by
  cases stack with
  | nil => simp [runFrom, ho] at h
  | cons a below => exact ⟨a, below, rfl, by simpa [runFrom, ho] using h⟩

/-- An operation needs two values on the stack. -/
theorem exists_of_runFrom_binary {o : Op} (ho : o.isUnary = false)
    (h : m.runFrom stack (.op o :: rest) = .ok v) :
    ∃ a b below w, stack = b :: a :: below ∧ m.binary o a b = .ok w ∧
        m.runFrom (w :: below) rest = .ok v := by
  rcases stack with _ | ⟨b, _ | ⟨a, below⟩⟩
  · simp [runFrom, ho] at h
  · simp [runFrom, ho] at h
  · obtain ⟨w, hw, hrun⟩ := exists_of_bind_eq_ok (by simpa [runFrom, ho] using h)
    exact ⟨a, b, below, w, rfl, hw, hrun⟩

/-- The end of a row leaves one value. -/
theorem eq_of_runFrom_nil (h : m.runFrom stack [] = .ok v) : stack = [v] := by
  rcases stack with _ | ⟨w, _ | ⟨w', more⟩⟩
  · cases h
  · cases h
    rfl
  · cases h

/-- **The machine counts.** A run that ends with one value started with as many as the row asks
for. -/
theorem length_add_excess {row : List Token} (hplaced : ∀ t ∈ row, t.isPlaced = true)
    (h : m.runFrom stack row = .ok v) : stack.length + excess row = 1 := by
  induction row generalizing stack with
  | nil =>
      rw [eq_of_runFrom_nil h]
      rfl
  | cons t rest ih =>
      obtain ⟨ht, hrest⟩ := List.forall_mem_cons.1 hplaced
      cases t with
      | number text | letter c =>
          rw [runFrom_operand (by simp)] at h
          obtain ⟨w, _, hrun⟩ := exists_of_bind_eq_ok h
          have hcount := ih hrest hrun
          simp only [List.length_cons, excess_cons, Token.weight] at hcount ⊢
          omega
      | op o =>
          cases hunary : o.isUnary with
          | true =>
              obtain ⟨a, below, rfl, hrun⟩ := exists_of_runFrom_unary hunary h
              have hcount := ih hrest hrun
              simp only [List.length_cons, excess_cons, Token.weight, hunary, if_true] at hcount ⊢
              omega
          | false =>
              obtain ⟨a, b, below, w, rfl, _, hrun⟩ := exists_of_runFrom_binary hunary h
              have hcount := ih hrest hrun
              simp only [List.length_cons, excess_cons, Token.weight, hunary, Bool.false_eq_true,
                if_false] at hcount ⊢
              omega
      | opening c | closing c | unknown c => cases ht

end Meaning

/-! ## §2  What a postfix keeps -/

namespace Pending

/-- The operators that wait on a stack. -/
def waiting (stack : List Pending) : List Token :=
  stack.filterMap fun
    | op o => some (.op o)
    | bracket _ => none

/-- The brackets that are open on a stack, the innermost first. -/
def openBrackets (stack : List Pending) : List Char :=
  stack.filterMap fun
    | op _ => none
    | bracket c => some c

@[simp] theorem waiting_op (o : Op) (stack : List Pending) :
    waiting (.op o :: stack) = .op o :: waiting stack := rfl

@[simp] theorem waiting_bracket (c : Char) (stack : List Pending) :
    waiting (.bracket c :: stack) = waiting stack := rfl

@[simp] theorem openBrackets_op (o : Op) (stack : List Pending) :
    openBrackets (.op o :: stack) = openBrackets stack := rfl

@[simp] theorem openBrackets_bracket (c : Char) (stack : List Pending) :
    openBrackets (.bracket c :: stack) = c :: openBrackets stack := rfl

theorem release_split (next : Op) (stack : List Pending) :
    waiting stack = (release next stack).1 ++ waiting (release next stack).2 ∧
      openBrackets (release next stack).2 = openBrackets stack := by
  induction stack with
  | nil => exact ⟨rfl, rfl⟩
  | cons p below ih =>
      cases p with
      | bracket c => exact ⟨rfl, rfl⟩
      | op o =>
          rw [release]
          split
          · exact ⟨congrArg (Token.op o :: ·) ih.1, ih.2⟩
          · exact ⟨rfl, rfl⟩

theorem close?_split {c : Char} {stack below : List Pending} {out : List Token}
    (h : close? c stack = some (out, below)) :
    waiting stack = out ++ waiting below ∧
      openBrackets stack = openingOf c :: openBrackets below := by
  induction stack generalizing out with
  | nil => cases h
  | cons p stack ih =>
      cases p with
      | bracket b =>
          rw [close?] at h
          split at h
          · rename_i hb
            cases h
            exact ⟨rfl, by rw [openBrackets_bracket, hb]⟩
          · cases h
      | op o =>
          rw [close?] at h
          obtain ⟨⟨out', below'⟩, hclose, heq⟩ := Option.map_eq_some_iff.1 h
          cases heq
          obtain ⟨hwaiting, hopen⟩ := ih hclose
          exact ⟨congrArg (Token.op o :: ·) hwaiting, hopen⟩

theorem finish_split {stack : List Pending} {out : List Token} (h : finish stack = .ok out) :
    waiting stack = out ∧ openBrackets stack = [] := by
  induction stack generalizing out with
  | nil =>
      cases h
      exact ⟨rfl, rfl⟩
  | cons p stack ih =>
      cases p with
      | bracket c => cases h
      | op o =>
          obtain ⟨out', hfinish, rfl⟩ := exists_of_map_eq_ok h
          obtain ⟨hwaiting, hopen⟩ := ih hfinish
          exact ⟨congrArg (Token.op o :: ·) hwaiting, hopen⟩

theorem exists_op_of_mem_waiting {stack : List Pending} {t : Token} (h : t ∈ waiting stack) :
    ∃ o, t = .op o := by
  obtain ⟨p, _, hp⟩ := List.mem_filterMap.1 h
  cases p with
  | op o => exact ⟨o, (Option.some.inj hp).symm⟩
  | bracket c => cases hp

end Pending

/-- Whether the brackets of a row close those that are open, and each other. -/
def closes : List Char → List Token → Bool
  | [], [] => true
  | _ :: _, [] => false
  | brackets, .opening c :: rest => closes (c :: brackets) rest
  | b :: brackets, .closing c :: rest => b = openingOf c && closes brackets rest
  | [], .closing _ :: _ => false
  | brackets, _ :: rest => closes brackets rest

section

variable (brackets : List Char) (rest : List Token)

@[simp] theorem closes_number (text : List Char) :
    closes brackets (.number text :: rest) = closes brackets rest := by
  cases brackets <;> rfl

@[simp] theorem closes_letter (c : Char) :
    closes brackets (.letter c :: rest) = closes brackets rest := by
  cases brackets <;> rfl

@[simp] theorem closes_op (o : Op) : closes brackets (.op o :: rest) = closes brackets rest := by
  cases brackets <;> rfl

@[simp] theorem closes_opening (c : Char) :
    closes brackets (.opening c :: rest) = closes (c :: brackets) rest := by
  cases brackets <;> rfl

end

/-- **What a postfix keeps of a row.** The conversion succeeds only where brackets fit and every
token has a meaning. The postfix has the tokens of the row and those that were waiting, each as
often, but no brackets. -/
theorem toPostfixFrom_keeps {stack : List Pending} {row out : List Token}
    (h : toPostfixFrom stack row = .ok out) :
    out.Perm (Pending.waiting stack ++ row.filter Token.isPlaced) ∧
      closes (Pending.openBrackets stack) row = true ∧ ∀ c, Token.unknown c ∉ row := by
  induction row generalizing stack out with
  | nil =>
      rw [toPostfixFrom] at h
      obtain ⟨rfl, hopen⟩ := Pending.finish_split h
      rw [hopen, List.filter_nil, List.append_nil]
      exact ⟨.refl _, rfl, fun c => List.not_mem_nil⟩
  | cons t rest ih =>
      cases t with
      | number text | letter c =>
          rw [toPostfixFrom] at h
          · obtain ⟨out', hout, rfl⟩ := exists_of_map_eq_ok h
            obtain ⟨hperm, hcloses, hunknown⟩ := ih hout
            exact ⟨(hperm.cons _).trans List.perm_middle.symm, by simpa using hcloses,
              by simpa using hunknown⟩
          all_goals simp
      | opening c =>
          rw [toPostfixFrom] at h
          obtain ⟨hperm, hcloses, hunknown⟩ := ih h
          exact ⟨hperm, by simpa using hcloses, by simpa using hunknown⟩
      | closing c =>
          rw [toPostfixFrom] at h
          split at h
          · rename_i released below hclose
            obtain ⟨out', hout, rfl⟩ := exists_of_map_eq_ok h
            obtain ⟨hwaiting, hopen⟩ := Pending.close?_split hclose
            obtain ⟨hperm, hcloses, hunknown⟩ := ih hout
            refine ⟨?_, ?_, by simpa using hunknown⟩
            · rw [hwaiting, List.append_assoc]
              exact hperm.append_left released
            · rw [hopen, closes, decide_eq_true rfl]
              exact hcloses
          · cases h
      | op o =>
          rw [toPostfixFrom] at h
          obtain ⟨out', hout, rfl⟩ := exists_of_map_eq_ok h
          obtain ⟨hwaiting, hopen⟩ := Pending.release_split o stack
          obtain ⟨hperm, hcloses, hunknown⟩ := ih hout
          refine ⟨?_, by simpa [hopen] using hcloses, by simpa using hunknown⟩
          rw [hwaiting, List.append_assoc]
          exact (hperm.trans List.perm_middle.symm).append_left _
      | unknown c => cases h

/-! ## §3  The order -/

/-- Whether operands stand only where one is expected, and signs too. -/
def Spaced : (expecting : Bool) → List Token → Prop
  | _, [] => True
  | expecting, .number _ :: rest | expecting, .letter _ :: rest =>
      expecting = true ∧ Spaced false rest
  | expecting, .opening _ :: rest => expecting = true ∧ Spaced true rest
  | _, .closing _ :: rest => Spaced false rest
  | expecting, .op o :: rest => (o.isUnary = true → expecting = true) ∧ Spaced true rest
  | _, .unknown _ :: _ => False

/-- Whether in addition operations and closing brackets stand only where no operand is expected, nor
at the end of the row. -/
def InOrder : (expecting : Bool) → List Token → Prop
  | expecting, [] => expecting = false
  | expecting, .number _ :: rest | expecting, .letter _ :: rest =>
      expecting = true ∧ InOrder false rest
  | expecting, .opening _ :: rest => expecting = true ∧ InOrder true rest
  | expecting, .closing _ :: rest => expecting = false ∧ InOrder false rest
  | expecting, .op o :: rest => expecting = o.isUnary ∧ InOrder true rest
  | _, .unknown _ :: _ => False

/-- The values that are there before a row is read: one, unless an operand is expected. -/
def ready (expecting : Bool) : ℤ := if expecting then 0 else 1

/-- **Faults only lower the count.** A row in which no operands stand side by side never leaves more
than one value, and it leaves one only if it is in order. -/
theorem Spaced.inOrder {expecting : Bool} {row : List Token} (h : Spaced expecting row) :
    ready expecting + excess row ≤ 1 ∧
        (ready expecting + excess row = 1 → InOrder expecting row) := by
  induction row generalizing expecting with
  | nil => cases expecting <;> simp [ready, InOrder]
  | cons t rest ih =>
      cases t with
      | number text | letter c =>
          obtain ⟨rfl, hrest⟩ := h
          obtain ⟨hle, hone⟩ := ih hrest
          simp only [ready, excess_cons, Token.weight, InOrder, Bool.false_eq_true, if_false,
            if_true, true_and] at hle hone ⊢
          exact ⟨by omega, fun heq => hone (by omega)⟩
      | opening c =>
          obtain ⟨rfl, hrest⟩ := h
          obtain ⟨hle, hone⟩ := ih hrest
          simp only [ready, excess_cons, Token.weight, InOrder, if_true, true_and,
            zero_add] at hle hone ⊢
          exact ⟨hle, hone⟩
      | closing c =>
          obtain ⟨hle, hone⟩ := ih h
          -- where an operand is expected the bracket stands in for it, and one value is missing for
          -- good
          cases expecting <;>
            simp only [ready, excess_cons, Token.weight, InOrder, Bool.false_eq_true, if_false,
              if_true, true_and, false_and, zero_add, Bool.true_eq_false] at hle hone ⊢
          · exact ⟨hle, hone⟩
          · exact ⟨by omega, by omega⟩
      | op o =>
          obtain ⟨hsign, hrest⟩ := h
          obtain ⟨hle, hone⟩ := ih hrest
          cases hunary : o.isUnary with
          | true =>
              obtain rfl := hsign hunary
              simp only [ready, excess_cons, Token.weight, InOrder, hunary, if_true, true_and,
                zero_add] at hle hone ⊢
              exact ⟨hle, hone⟩
          | false =>
              cases expecting <;>
                simp only [ready, excess_cons, Token.weight, InOrder, hunary, Bool.false_eq_true,
                  if_false, if_true, true_and, false_and, zero_add,
                  Bool.true_eq_false] at hle hone ⊢
              · exact ⟨by omega, fun heq => hone (by omega)⟩
              · exact ⟨by omega, by omega⟩
      | unknown c => exact h.elim

/-! ## §4  Derivations of rows in order -/

/-- Whether a token holds what a token of its kind can hold. -/
def Token.IsProper : Token → Prop
  | number text => text ≠ [] ∧ ∀ c ∈ text, isNumeric c = true
  | letter c => isLetter c = true
  | opening c => isOpeningChar c = true
  | closing c => isClosingChar c = true
  | op _ | unknown _ => True

theorem Op.exists_sign {o : Op} (h : o.isUnary = true) : ∃ s : Sign, s.op = o := by
  cases o with
  | neg => exact ⟨.minus, rfl⟩
  | pos => exact ⟨.plus, rfl⟩
  | _ => cases h

theorem Op.exists_operation {o : Op} (h : o.isUnary = false) :
    ∃ operation : Operation, operation.op = o := by
  cases o with
  | add => exact ⟨.add, rfl⟩
  | sub => exact ⟨.sub, rfl⟩
  | mul => exact ⟨.mul, rfl⟩
  | div => exact ⟨.div, rfl⟩
  | pow => exact ⟨.pow, rfl⟩
  | _ => cases h

namespace Derives

variable {row right : List Token} {a b e : Expr}

/-- The phrase that a phrase becomes when its last atom is raised. -/
def raisedPhrase : Phrase → Phrase
  | .atom => .power
  | p => p

/-- A power behind a phrase raises its last atom. -/
theorem exists_append_power {p : Phrase} (h : Derives p row a) (hright : Derives .unary right b) :
    ∃ e, Derives (raisedPhrase p) (row ++ .op Operation.pow.op :: right) e := by
  induction h with
  | ofTerm _ ih => exact ih.imp fun _ => .ofTerm
  | ofUnary _ ih => exact ih.imp fun _ => .ofUnary
  | ofPower _ ih => exact ih.imp fun _ => .ofPower
  | ofAtom _ ih => exact ih
  | sum hleft ho _ _ ih =>
      obtain ⟨e, he⟩ := ih
      exact ⟨_, by simpa [raisedPhrase] using hleft.sum ho he⟩
  | product hleft ho _ _ ih =>
      obtain ⟨e, he⟩ := ih
      exact ⟨_, by simpa [raisedPhrase] using hleft.product ho he⟩
  | power hleft _ _ ih =>
      obtain ⟨e, he⟩ := ih
      exact ⟨_, by simpa [raisedPhrase] using hleft.power he⟩
  | sign s _ ih =>
      obtain ⟨e, he⟩ := ih
      exact ⟨_, he.sign s⟩
  | number hne hnumeric => exact ⟨_, (Derives.number hne hnumeric).power hright⟩
  | letter hletter => exact ⟨_, (Derives.letter hletter).power hright⟩
  | bracket hpair hrow _ => exact ⟨_, (Derives.bracket hpair hrow).power hright⟩

/-- A product behind an expression takes its last term for the left factor. -/
theorem exists_append_product {o : Operation} (ho : o = .mul ∨ o = .div) (h : Derives .expr row a)
    (hright : Derives .unary right b) : ∃ e, Derives .expr (row ++ .op o.op :: right) e := by
  cases h with
  | ofTerm hterm => exact ⟨_, .ofTerm (hterm.product ho hright)⟩
  | sum hleft ho' hterm => exact ⟨_, by simpa using hleft.sum ho' (hterm.product ho hright)⟩

/-- An expression can be carried on with every operation. -/
theorem exists_append (o : Operation) (h : Derives .expr row a) (hright : Derives .unary right b) :
    ∃ e, Derives .expr (row ++ .op o.op :: right) e := by
  cases o with
  | add => exact ⟨_, h.sum (.inl rfl) (.ofUnary hright)⟩
  | sub => exact ⟨_, h.sum (.inr rfl) (.ofUnary hright)⟩
  | mul => exact h.exists_append_product (.inl rfl) hright
  | div => exact h.exists_append_product (.inr rfl) hright
  | pow => exact h.exists_append_power hright

end Derives

/-- Whether every unary phrase behind a row makes it an expression. -/
def Awaits (front : List Token) : Prop :=
  ∀ right b, Derives .unary right b → ∃ e, Derives .expr (front ++ right) e

theorem awaits_nil : Awaits [] := fun _ _ hright => ⟨_, .ofTerm (.ofUnary hright)⟩

theorem Awaits.sign {front : List Token} (h : Awaits front) (s : Sign) :
    Awaits (front ++ [.op s.op]) := by
  intro right b hright
  obtain ⟨e, he⟩ := h _ _ (hright.sign s)
  exact ⟨e, by simpa using he⟩

theorem Awaits.atom {front right : List Token} {b : Expr} (h : Awaits front)
    (hright : Derives .atom right b) :
    ∃ e, Derives .expr (front ++ right) e :=
  h _ _ (.ofPower (.ofAtom hright))

theorem Derives.awaits {row : List Token} {a : Expr} (h : Derives .expr row a) (o : Operation) :
    Awaits (row ++ [.op o.op]) := by
  intro right b hright
  obtain ⟨e, he⟩ := h.exists_append o hright
  exact ⟨e, by simpa using he⟩

/-- What has been read inside of the innermost open bracket: something that awaits an operand, or an
expression. -/
def HasRead : (expecting : Bool) → List Token → Prop
  | true, front => Awaits front
  | false, front => ∃ e, Derives .expr front e

/-- A step over an operator: a sign where an operand is awaited, an operation behind an
expression. -/
theorem HasRead.op {front : List Token} {o : Op} (h : HasRead o.isUnary front) :
    HasRead true (front ++ [.op o]) := by
  cases hunary : o.isUnary with
  | true =>
      rw [hunary] at h
      obtain ⟨s, rfl⟩ := Op.exists_sign hunary
      exact Awaits.sign h s
  | false =>
      rw [hunary] at h
      obtain ⟨operation, rfl⟩ := Op.exists_operation hunary
      obtain ⟨e, he⟩ := h
      exact he.awaits operation

/-- A step over a closing bracket: what is in the brackets becomes an operand of what is in
front. -/
theorem HasRead.closing {front before : List Token} {c : Char} (hc : isClosingChar c = true)
    (h : HasRead false front) (hbefore : Awaits before) :
    HasRead false (before ++ (.opening (openingOf c) :: front ++ [.closing c])) := by
  obtain ⟨e, he⟩ := h
  have hpair : (openingOf c, c) ∈ bracketPairs := by
    have hkinds : (c = ')' ∨ c = ']') ∨ c = '\x7d' := by simpa [isClosingChar] using hc
    rcases hkinds with (rfl | rfl) | rfl <;> decide
  exact hbefore.atom (.bracket hpair he)

/-- A row with the open brackets in front of it and what stands in front of each, the innermost
first. -/
def within : List (Char × List Token) → List Token → List Token
  | [], row => row
  | (c, front) :: outer, row => within outer (front ++ .opening c :: row)

/-- **A row in order is an expression.** What is read stays, level by level, an expression or
something that awaits an operand, and at the end no bracket is open. -/
theorem exists_derives_within {row front : List Token} {outer : List (Char × List Token)}
    {expecting : Bool} (houter : ∀ level ∈ outer, Awaits level.2)
    (hread : HasRead expecting front) (hproper : ∀ t ∈ row, t.IsProper)
    (horder : InOrder expecting row) (hcloses : closes (outer.map Prod.fst) row = true) :
    ∃ e, Derives .expr (within outer (front ++ row)) e := by
  induction row generalizing front outer expecting with
  | nil =>
      obtain rfl : expecting = false := horder
      cases outer with
      | nil => simpa [within, HasRead] using hread
      | cons level outer => cases hcloses
  | cons t rest ih =>
      have hrest : ∀ t ∈ rest, t.IsProper := fun t ht => hproper t (List.mem_cons_of_mem _ ht)
      have ht : t.IsProper := hproper t List.mem_cons_self
      have hassoc : front ++ t :: rest = front ++ [t] ++ rest := by simp
      cases t with
      | number text =>
          obtain ⟨rfl, horder⟩ := horder
          have hread' : HasRead false (front ++ [.number text]) :=
            Awaits.atom hread (.number ht.1 ht.2)
          rw [hassoc]
          exact ih houter hread' hrest horder (by simpa using hcloses)
      | letter c =>
          obtain ⟨rfl, horder⟩ := horder
          have hread' : HasRead false (front ++ [.letter c]) := Awaits.atom hread (.letter ht)
          rw [hassoc]
          exact ih houter hread' hrest horder (by simpa using hcloses)
      | opening c =>
          obtain ⟨rfl, horder⟩ := horder
          have houter' : ∀ level ∈ (c, front) :: outer, Awaits level.2 :=
            List.forall_mem_cons.2 ⟨hread, houter⟩
          have hread' : HasRead true [] := awaits_nil
          exact ih houter' hread' hrest horder (by simpa using hcloses)
      | closing c =>
          obtain ⟨rfl, horder⟩ := horder
          cases outer with
          | nil => cases hcloses
          | cons level outer =>
              obtain ⟨b, before⟩ := level
              obtain ⟨hbefore, hbelow⟩ := List.forall_mem_cons.1 houter
              obtain ⟨hb, hrestCloses⟩ := (Bool.and_eq_true ..).mp hcloses
              obtain rfl : b = openingOf c := of_decide_eq_true hb
              have hwhole := ih hbelow (hread.closing ht hbefore) hrest horder hrestCloses
              simpa [within] using hwhole
      | op o =>
          obtain ⟨rfl, horder⟩ := horder
          rw [hassoc]
          exact ih houter hread.op hrest horder (by simpa using hcloses)
      | unknown c => exact horder.elim

end InkAlgebra

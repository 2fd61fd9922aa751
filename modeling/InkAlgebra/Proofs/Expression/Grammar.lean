import InkAlgebra.Expression.Token

/-!
# The grammar of expressions

An expression is a tree of operands, signs and operations; brackets are how a tree is written and no
part of it. The grammar says which rows of tokens write which tree, one phrase for each strength of
binding:

- an *expression* is terms joined by `+` and `-`, grouped to the left;
- a *term* is unary phrases joined by `*` and `/`, grouped to the left;
- a *unary* phrase is a power behind any number of signs;
- a *power* is an atom, or an atom raised to a whole unary phrase, hence grouped to the right;
- an *atom* is a number, a letter, or an expression in brackets of one kind.

The parser knows nothing of this grammar: it compares precedences. That the two agree is the subject
of `Proofs.Expression.Parsing`. §1 is the tree, §2 the grammar.
-/

namespace InkAlgebra

/-! ## §1  Trees -/

/-- What can stand between two operands. -/
inductive Operation where
  | add
  | sub
  | mul
  | div
  | pow
deriving DecidableEq, Repr

/-- What can stand in front of an operand. -/
inductive Sign where
  | plus
  | minus
deriving DecidableEq, Repr

def Operation.op : Operation → Op
  | add => .add
  | sub => .sub
  | mul => .mul
  | div => .div
  | pow => .pow

def Sign.op : Sign → Op
  | plus => .pos
  | minus => .neg

@[simp] theorem Operation.isUnary_op (o : Operation) : o.op.isUnary = false := by
  cases o <;> rfl

@[simp] theorem Sign.isUnary_op (s : Sign) : s.op.isUnary = true := by
  cases s <;> rfl

inductive Expr where
  | number (text : List Char)
  | letter (c : Char)
  | signed (s : Sign) (a : Expr)
  | binary (o : Operation) (a b : Expr)
deriving DecidableEq, Repr

namespace Expr

/-- The tokens of a tree, each operator behind its operands. -/
def postorder : Expr → List Token
  | number text => [.number text]
  | letter c => [.letter c]
  | signed s a => a.postorder ++ [.op s.op]
  | binary o a b => a.postorder ++ b.postorder ++ [.op o.op]

/-- A tree and all trees below it. -/
def parts : Expr → List Expr
  | number text => [number text]
  | letter c => [letter c]
  | signed s a => signed s a :: a.parts
  | binary o a b => binary o a b :: (a.parts ++ b.parts)

theorem mem_parts_self (e : Expr) : e ∈ e.parts := by
  cases e <;> simp [parts]

/-- What a tree hands down to the trees right below it holds of all its parts. -/
theorem of_mem_parts {P : Expr → Prop} (hsigned : ∀ {s a}, P (signed s a) → P a)
    (hbinary : ∀ {o a b}, P (binary o a b) → P a ∧ P b) {e : Expr} (h : P e) :
    ∀ d ∈ e.parts, P d := by
  induction e with
  | number text => exact List.forall_mem_singleton.2 h
  | letter c => exact List.forall_mem_singleton.2 h
  | signed s a ih => exact List.forall_mem_cons.2 ⟨h, ih (hsigned h)⟩
  | binary o a b ihA ihB =>
      obtain ⟨ha, hb⟩ := hbinary h
      exact List.forall_mem_cons.2 ⟨h, List.forall_mem_append.2 ⟨ihA ha, ihB hb⟩⟩

end Expr

/-! ## §2  Phrases -/

/-- The phrases of the grammar, from the weakest binding to the tightest. -/
inductive Phrase where
  | expr
  | term
  | unary
  | power
  | atom
deriving DecidableEq, Repr

/-- The brackets that belong together. -/
def bracketPairs : List (Char × Char) := [('(', ')'), ('[', ']'), ('\x7b', '\x7d')]

theorem mem_bracketPairs {o c : Char} : (o, c) ∈ bracketPairs ↔
    (o = '(' ∧ c = ')') ∨ (o = '[' ∧ c = ']') ∨ (o = '\x7b' ∧ c = '\x7d') := by
  simp [bracketPairs]

/-- Which rows of tokens write which tree, phrase by phrase. -/
inductive Derives : Phrase → List Token → Expr → Prop
  | ofTerm {row : List Token} {e : Expr} :
      Derives .term row e → Derives .expr row e
  | sum {left right : List Token} {a b : Expr} {o : Operation} :
      Derives .expr left a → o = .add ∨ o = .sub → Derives .term right b →
        Derives .expr (left ++ .op o.op :: right) (.binary o a b)
  | ofUnary {row : List Token} {e : Expr} :
      Derives .unary row e → Derives .term row e
  | product {left right : List Token} {a b : Expr} {o : Operation} :
      Derives .term left a → o = .mul ∨ o = .div → Derives .unary right b →
        Derives .term (left ++ .op o.op :: right) (.binary o a b)
  | ofPower {row : List Token} {e : Expr} :
      Derives .power row e → Derives .unary row e
  | sign {row : List Token} {a : Expr} (s : Sign) :
      Derives .unary row a → Derives .unary (.op s.op :: row) (.signed s a)
  | ofAtom {row : List Token} {e : Expr} :
      Derives .atom row e → Derives .power row e
  | power {left right : List Token} {a b : Expr} :
      Derives .atom left a → Derives .unary right b →
        Derives .power (left ++ .op Operation.pow.op :: right) (.binary .pow a b)
  | number {text : List Char} :
      text ≠ [] → (∀ c ∈ text, isNumeric c = true) →
        Derives .atom [.number text] (.number text)
  | letter {c : Char} :
      isLetter c = true → Derives .atom [.letter c] (.letter c)
  | bracket {row : List Token} {e : Expr} {o c : Char} :
      (o, c) ∈ bracketPairs → Derives .expr row e →
        Derives .atom (.opening o :: row ++ [.closing c]) e

/-- Whether a text writes a tree as a phrase of the given kind. -/
def WritesAs (p : Phrase) (text : List Char) (e : Expr) : Prop :=
  ∃ row, Derives p row e ∧ row.flatMap Token.source = text

/-- Whether a text is an expression with the given tree. -/
def Writes (text : List Char) (e : Expr) : Prop := WritesAs .expr text e

end InkAlgebra

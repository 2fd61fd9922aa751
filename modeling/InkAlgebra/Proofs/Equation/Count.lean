import Mathlib
import InkAlgebra.Proofs.Equation.Sides

/-!
# Sides that a count accepts

The least that can be asked of a postfix is that a machine which only counts gets through it with
one value left. Behind the parser this is already the whole grammar, as long as no decimal point is
around: the canonical form has written out every product, so that no operands touch, and a row of
tokens without touching operands that leaves one value is a derivation.

A comma is the only mark of handwriting that becomes a point. A text without one therefore has sides
that are accepted by count exactly if they are expressions.

§1 is the count, §2 texts without points, §3 the two together.
-/

namespace InkAlgebra

/-! ## §1  Counting -/

/-- The meaning that keeps nothing of a value but its place on the stack. -/
def counting : Meaning Unit Unit where
  operand
    | .number _ | .letter _ => .ok ()
    | _ => .error ()
  unary _ _ := ()
  binary _ _ _ := .ok ()
  malformed := ()

/-- Whether a postfix finds its operands on the stack at every operator, and leaves one value. -/
def Balances (post : List Token) : Prop := counting.run post = .ok ()

instance (post : List Token) : Decidable (Balances post) :=
  inferInstanceAs (Decidable (_ = _))

theorem value_counting (e : Expr) : counting.value e = .ok () := by
  induction e with
  | number text => rfl
  | letter c => rfl
  | signed s a ih =>
      rw [Meaning.value, ih]
      rfl
  | binary o a b ihA ihB =>
      rw [Meaning.value, ihA, ihB]
      rfl

/-- The postorder of a tree never lacks a value. -/
theorem balances_postorder (e : Expr) : Balances e.postorder := by
  rw [Balances, Meaning.run_postorder, value_counting]

/-! ## §2  Texts without points -/

theorem pointsInNumbers_of_not_mem {text : List Char} (h : '.' ∉ text) : PointsInNumbers text := by
  have hpairs : text.Pairwise fun a b => strayPoint a b = false := by
    refine List.pairwise_of_forall_mem_list ?_
    intro a ha b hb
    have hne : a ≠ '.' := fun heq => h (heq ▸ ha)
    have hne' : b ≠ '.' := fun heq => h (heq ▸ hb)
    simp [strayPoint, hne, hne']
  exact hpairs.isChain

/-- Without commas no operands touch in a side. -/
theorem operandsApart_of_mem_splitOn {raw side : List Char} (h : ',' ∉ raw)
    (hside : side ∈ (canonicalForm raw).splitOn '=') : OperandsApart side := by
  have hpart : side <:+: canonicalForm raw := isInfix_of_mem_splitOn hside
  have hpoints : PointsInNumbers side := by
    apply pointsInNumbers_of_not_mem
    intro hpoint
    exact point_not_mem_canonicalForm h (hpart.subset hpoint)
  have hproducts : ProductsWritten side :=
    List.IsChain.infix (productsWritten_canonicalForm raw) hpart
  exact (operandsApart_iff_pointsInNumbers hproducts).2 hpoints

/-! ## §3  Accepted sides -/

theorem writes_iff_derives_tokenize {text : List Char} {e : Expr} :
    Writes text e ↔ Derives .expr (tokenize text) e := by
  constructor
  · rintro ⟨row, hrow, rfl⟩
    rwa [tokenize_of_derives hrow]
  · intro hrow
    exact ⟨tokenize text, hrow, flatMap_source_tokenizeFrom true text⟩

/-- **A count accepts the grammar.** A side of a text without commas is parsed into a postfix that a
count gets through exactly if its tokens are those of an expression. -/
theorem balances_iff_derives {raw side : List Char} (h : ',' ∉ raw)
    (hside : side ∈ (canonicalForm raw).splitOn '=') :
    (∃ post, infixToPostfix side = .ok post ∧ Balances post) ↔
        ∃ e, Derives .expr (tokenize side) e := by
  constructor
  · rintro ⟨post, hparse, hbalances⟩
    obtain ⟨horder, hcloses⟩ :=
      inOrder_of_run hparse hbalances (operandsApart_of_mem_splitOn h hside)
    obtain ⟨e, he⟩ := exists_writes_of_inOrder horder hcloses
    exact ⟨e, writes_iff_derives_tokenize.1 he⟩
  · rintro ⟨e, he⟩
    exact ⟨e.postorder, infixToPostfix_of_writes (writes_iff_derives_tokenize.2 he),
      balances_postorder e⟩

/-- Of an equation the left side is an expression. The right side lacks an operand inside of its
brackets, and nothing outside of them makes up for it. -/
theorem balances_iff_derives_unevenSides :
    ',' ∉ "2[x-{-3}:x]^2=(x-)y".toList ∧
      (canonicalForm "2[x-{-3}:x]^2=(x-)y".toList).splitOn '=' =
        ["2*(x-(-3)/x)^2".toList, "(x-)*y".toList] ∧
      (∃ e, Derives .expr (tokenize "2*(x-(-3)/x)^2".toList) e) ∧
      ¬ ∃ e, Derives .expr (tokenize "(x-)*y".toList) e := by
  have hcomma : ',' ∉ "2[x-{-3}:x]^2=(x-)y".toList := by decide
  have hsides : (canonicalForm "2[x-{-3}:x]^2=(x-)y".toList).splitOn '=' =
      ["2*(x-(-3)/x)^2".toList, "(x-)*y".toList] := by decide
  refine ⟨hcomma, hsides, ?_, ?_⟩
  · refine (balances_iff_derives hcomma (hsides ▸ List.mem_cons_self)).1 ?_
    exact ⟨_, rfl, by decide⟩
  · intro hderives
    obtain ⟨post, hparse, hbalances⟩ :=
      (balances_iff_derives hcomma (hsides ▸ List.mem_cons_of_mem _ List.mem_cons_self)).2 hderives
    have hpost : infixToPostfix "(x-)*y".toList =
        .ok [.letter 'x', .op .sub, .letter 'y', .op .mul] := by decide
    rw [hpost] at hparse
    cases hparse
    exact absurd hbalances (by decide)

end InkAlgebra

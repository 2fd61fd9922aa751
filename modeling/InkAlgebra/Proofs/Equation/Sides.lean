import Mathlib
import InkAlgebra.Number.Binary64
import InkAlgebra.Proofs.Expression.Adjacency
import InkAlgebra.Solution

/-!
# The sides of a solved equation

A solution that is valid comes from an equation whose sides were parsed and evaluated. What this
says of the text of the equation is the subject here: there is at most one `=` in it, because a
second one would be a character without a meaning in the right side, and each side is a text of the
grammar exactly if no decimal point of it stands beside a letter or on the outside of a bracket.

The points are no matter of style. The canonical form writes out every missing product but theirs,
so that operands can touch there, and the machine that only counts can balance them against an
operation that lacks one: `x,5-` is solved as if it said `x-.5`.

§1 is the equation taken apart, §2 its sides.
-/

namespace InkAlgebra

/-! ## §1  Sides -/

theorem splitEquation_of_not_mem {text : List Char} (h : '=' ∉ text) :
    splitEquation text = (text, none) := by
  have hne : ∀ c ∈ text, decide (c ≠ '=') = true := by
    rintro c hc
    exact decide_eq_true fun heq => h (heq ▸ hc)
  unfold splitEquation
  rw [List.takeWhile_eq_self_iff.2 hne, List.dropWhile_eq_nil_iff.2 hne]

theorem splitEquation_append_cons {left : List Char} (h : '=' ∉ left) (right : List Char) :
    splitEquation (left ++ '=' :: right) = (left, some right) := by
  have hne : ∀ c ∈ left, decide (c ≠ '=') = true := by
    rintro c hc
    exact decide_eq_true fun heq => h (heq ▸ hc)
  unfold splitEquation
  rw [List.takeWhile_append_of_pos hne, List.dropWhile_append_of_pos hne]
  simp

theorem splitOn_of_not_mem {text : List Char} (h : '=' ∉ text) : text.splitOn '=' = [text] := by
  refine List.splitOnP_eq_singleton ?_
  intro c hc
  exact beq_false_of_ne fun heq => h (heq ▸ hc)

theorem splitOn_append_cons {left : List Char} (h : '=' ∉ left) (right : List Char) :
    (left ++ '=' :: right).splitOn '=' = left :: right.splitOn '=' := by
  refine List.splitOnP_append_cons_of_forall_mem ?_ '=' rfl right
  intro c hc
  exact beq_false_of_ne fun heq => h (heq ▸ hc)

theorem isInfix_of_mem_splitOn {text side : List Char} (h : side ∈ text.splitOn '=') :
    side <:+: text := by
  induction hn : text.length using Nat.strong_induction_on generalizing text with
  | _ n ih =>
      by_cases hmem : '=' ∈ text
      · obtain ⟨left, right, rfl, hleft⟩ := List.eq_append_cons_of_mem hmem
        rw [splitOn_append_cons hleft] at h
        rcases List.mem_cons.1 h with rfl | h
        · exact (List.prefix_append side _).isInfix
        · have hlength : right.length < n := by
            rw [← hn, List.length_append, List.length_cons]
            omega
          have hsuffix : right <:+ left ++ '=' :: right := ⟨left ++ ['='], by simp⟩
          exact (ih _ hlength h rfl).trans hsuffix.isInfix
      · rw [splitOn_of_not_mem hmem] at h
        rw [List.mem_singleton.1 h]

variable {α : Type} [Coefficient α]

/-- What is evaluated has been parsed and run. -/
theorem exists_run_of_ofExpression {maxDegree : UInt32} {text : List Char} {p : Polynomial α}
    (h : Polynomial.ofExpression maxDegree text = .ok p) :
    ∃ post, infixToPostfix text = .ok post ∧ (Polynomial.meaning maxDegree).run post = .ok p := by
  obtain ⟨post, hparse, hrun⟩ := exists_of_bind_eq_ok h
  refine ⟨post, ?_, hrun⟩
  cases hpost : infixToPostfix text with
  | error e =>
      rw [hpost] at hparse
      cases hparse
  | ok post' =>
      rw [hpost] at hparse
      cases hparse
      rfl

/-! ## §2  Solved equations -/

/-- What is known of a side that was evaluated, be it with other letters. -/
def SideRead (side : List Char) : Prop := '=' ∉ side ∧ ((∃ e, Writes side e) ↔ OperandsApart side)

theorem sideRead_of_ofExpression {f : Char → Char} (hf : Relabels f) {maxDegree : UInt32}
    {side : List Char} {p : Polynomial α}
    (h : Polynomial.ofExpression maxDegree (side.map f) = .ok p) : SideRead side := by
  obtain ⟨post, hparse, hrun⟩ := exists_run_of_ofExpression h
  refine ⟨fun hmem => ?_, exists_writes_iff_of_relabelled hf hparse hrun⟩
  have hequals : f '=' = '=' := hf.eq_self (by decide)
  exact equals_not_mem_of_parsed hparse (List.mem_map.2 ⟨'=', hmem, hequals⟩)

theorem sideRead_zero : SideRead ['0'] := by
  have hzero : Writes ['0'] (.number ['0']) :=
    ⟨[.number ['0']],
      .ofTerm (.ofUnary (.ofPower (.ofAtom (.number (by decide) (List.all_eq_true.1 rfl))))), rfl⟩
  exact ⟨by decide, fun _ => by decide, fun _ => ⟨_, hzero⟩⟩

theorem not_mem_map_of_relabels {f : Char → Char} (hf : Relabels f) {side : List Char}
    (h : '=' ∉ side) :
    '=' ∉ side.map f := by
  intro hmem
  obtain ⟨c, hc, heq⟩ := List.mem_map.1 hmem
  obtain rfl : c = '=' := hf.eq_of_apply_eq (by decide) heq
  exact h hc

variable (α) in
/-- What becomes of a side with other letters: it is evaluated, or it is `0` and not looked at. -/
def SideEvaluated (f : Char → Char) (maxDegree : UInt32) (side : List Char) : Prop :=
  side = ['0'] ∨ ∃ p : Polynomial α, Polynomial.ofExpression maxDegree (side.map f) = .ok p

theorem SideEvaluated.sideRead {f : Char → Char} (hf : Relabels f) {maxDegree : UInt32}
    {side : List Char} (h : SideEvaluated α f maxDegree side) : SideRead side := by
  rcases h with rfl | ⟨p, hp⟩
  · exact sideRead_zero
  · exact sideRead_of_ofExpression hf hp

/-- Of an equation with an `=` both sides are evaluated, a `0` on the right apart. -/
theorem sidesEvaluated_of_equationPolynomial {f : Char → Char} (hf : Relabels f)
    {maxDegree : UInt32} {left right : List Char} {p : Polynomial α} (hleft : '=' ∉ left)
    (h : equationPolynomial maxDegree ((left ++ '=' :: right).map f) = .ok p) :
    SideEvaluated α f maxDegree left ∧ SideEvaluated α f maxDegree right := by
  have hequals : f '=' = '=' := hf.eq_self (by decide)
  rw [List.map_append, List.map_cons, hequals, equationPolynomial,
    splitEquation_append_cons (not_mem_map_of_relabels hf hleft)] at h
  split at h
  · rename_i heq
    cases heq
  · rename_i left' heq
    obtain ⟨rfl, hright⟩ := Prod.mk.inj heq
    have hzero : right.map f = ['0'] := Option.some.inj hright
    obtain rfl : right = ['0'] := by
      obtain ⟨c, hc, heq⟩ := List.map_eq_singleton_iff.1 hzero
      rw [hc, hf.eq_of_apply_eq (by decide) heq]
    exact ⟨.inr ⟨p, h⟩, .inl rfl⟩
  · rename_i left' right' _ heq
    obtain ⟨rfl, hright⟩ := Prod.mk.inj heq
    obtain rfl : right.map f = right' := Option.some.inj hright
    obtain ⟨pLeft, hpLeft, h⟩ := exists_of_bind_eq_ok h
    obtain ⟨pRight, hpRight, _⟩ := exists_of_bind_eq_ok h
    exact ⟨.inr ⟨pLeft, hpLeft⟩, .inr ⟨pRight, hpRight⟩⟩

/-- **Sides of an equation.** Where an equation becomes a polynomial, be it with other letters,
there is at most one `=` in it, and both sides are evaluated. -/
theorem sideEvaluated_of_equationPolynomial {f : Char → Char} (hf : Relabels f) {maxDegree : UInt32}
    {text : List Char} {p : Polynomial α} (h : equationPolynomial maxDegree (text.map f) = .ok p) :
    text.count '=' ≤ 1 ∧ ∀ side ∈ text.splitOn '=', SideEvaluated α f maxDegree side := by
  by_cases hmem : '=' ∈ text
  · obtain ⟨left, right, rfl, hleft⟩ := List.eq_append_cons_of_mem hmem
    obtain ⟨hevalLeft, hevalRight⟩ := sidesEvaluated_of_equationPolynomial hf hleft h
    have hright : '=' ∉ right := (hevalRight.sideRead hf).1
    have hcount : (left ++ '=' :: right).count '=' = 1 := by
      rw [List.count_append, List.count_cons_self, List.count_eq_zero.2 hleft,
        List.count_eq_zero.2 hright]
    refine ⟨hcount.le, ?_⟩
    rw [splitOn_append_cons hleft, splitOn_of_not_mem hright]
    exact List.forall_mem_cons.2 ⟨hevalLeft, List.forall_mem_singleton.2 hevalRight⟩
  · rw [equationPolynomial, splitEquation_of_not_mem (not_mem_map_of_relabels hf hmem)] at h
    refine ⟨(List.count_eq_zero.2 hmem).le.trans (by omega), ?_⟩
    rw [splitOn_of_not_mem hmem]
    exact List.forall_mem_singleton.2 (.inr ⟨p, h⟩)

theorem sideRead_of_equationPolynomial {f : Char → Char} (hf : Relabels f) {maxDegree : UInt32}
    {text : List Char} {p : Polynomial α} (h : equationPolynomial maxDegree (text.map f) = .ok p) :
    text.count '=' ≤ 1 ∧ ∀ side ∈ text.splitOn '=', SideRead side := by
  obtain ⟨hcount, hsides⟩ := sideEvaluated_of_equationPolynomial hf h
  exact ⟨hcount, fun side hside => (hsides side hside).sideRead hf⟩

omit [Coefficient α] in
/-- An equation is solved as it stands or with `x` for its unknown. -/
theorem exists_relabels_of_inOneUnknown {text inX : List Char} {unknown : Option Char}
    (h : inOneUnknown (α := α) text = .ok (inX, unknown)) : ∃ f, Relabels f ∧ inX = text.map f := by
  unfold inOneUnknown at h
  split at h
  · cases h
    exact ⟨id, fun _ => .inl rfl, (List.map_id text).symm⟩
  · rename_i letter hfind
    split at h
    · cases h
      refine ⟨fun c => if c = letter then 'x' else c, fun c => ?_, rfl⟩
      by_cases hc : c = letter
      · have hletter : isLetter letter = true := List.find?_some hfind
        refine .inr ⟨hc ▸ hletter, ?_⟩
        show isLetter (if c = letter then 'x' else c) = true
        rw [if_pos hc]
        decide
      · exact .inl (if_neg hc)
    · cases h

/-- What is solved has a polynomial. -/
theorem exists_polynomial_of_valid {write : α → List Char} {s : SolverSettings α}
    {typesetter : Typesetter} {raw : List Char} {solution : Solution α}
    (h : solveExpression write s typesetter raw = some solution) (hvalid : solution.valid = true) :
    ∃ f, Relabels f ∧
      ∃ p : Polynomial α, equationPolynomial s.maxDegree ((canonicalForm raw).map f) = .ok p := by
  obtain ⟨roots, hroots⟩ := exists_roots_of_valid h hvalid
  unfold solveCanonical at hroots
  split at hroots
  · cases hroots
  · rename_i inX unknown hinX
    obtain ⟨f, hf, rfl⟩ := exists_relabels_of_inOneUnknown hinX
    obtain ⟨_, _, hpolynomial⟩ := exists_of_bind_eq_ok hroots
    obtain ⟨p, hp, _⟩ := exists_of_bind_eq_ok hpolynomial
    exact ⟨f, hf, p, hp⟩

/-- **Only equations are solved, up to stray points.** The canonical form of what is solved has at
most one `=`, and each side of it is an expression of the grammar exactly if its decimal points
stand in numbers. -/
theorem sides_wellFormed_iff_pointsInNumbers {write : α → List Char} {s : SolverSettings α}
    {typesetter : Typesetter} {raw : List Char} {solution : Solution α}
    (h : solveExpression write s typesetter raw = some solution) (hvalid : solution.valid = true) :
    (canonicalForm raw).count '=' ≤ 1 ∧
      ∀ side ∈ (canonicalForm raw).splitOn '=', (∃ e, Writes side e) ↔ PointsInNumbers side := by
  obtain ⟨f, hf, p, hp⟩ := exists_polynomial_of_valid h hvalid
  obtain ⟨hcount, hsides⟩ := sideRead_of_equationPolynomial hf hp
  refine ⟨hcount, fun side hside => ?_⟩
  have hproducts : ProductsWritten side := by
    obtain ⟨front, back, hsplit⟩ := isInfix_of_mem_splitOn hside
    have hwhole : ProductsWritten (front ++ side ++ back) :=
      hsplit ▸ productsWritten_canonicalForm raw
    exact hwhole.left_of_append.right_of_append
  rw [(hsides side hside).2, operandsApart_iff_pointsInNumbers hproducts]

/-- An equation with decimals, products and brackets of all kinds. -/
theorem decimalFactors_sides_wellFormed :
    (∃ solution : Solution Float,
      solveExpression (fun _ => []) .standard typeset "2,5[x-,5]=-(3:4)x".toList = some solution ∧
        solution.valid = true) ∧
      (canonicalForm "2,5[x-,5]=-(3:4)x".toList).count '=' ≤ 1 ∧
      ∀ side ∈ (canonicalForm "2,5[x-,5]=-(3:4)x".toList).splitOn '=', ∃ e, Writes side e := by
  have hsolved : (solveExpression (fun _ => []) .standard typeset "2,5[x-,5]=-(3:4)x".toList :
      Option (Solution Float)).any Solution.valid = true := by
    decide +kernel
  obtain ⟨solution, hsolution, hvalid⟩ := (Option.any_eq_true ..).1 hsolved
  obtain ⟨hcount, hsides⟩ := sides_wellFormed_iff_pointsInNumbers hsolution hvalid
  have hpoints : ∀ side ∈ (canonicalForm "2,5[x-,5]=-(3:4)x".toList).splitOn '=',
      PointsInNumbers side := by
    decide
  exact ⟨⟨solution, hsolution, hvalid⟩, hcount,
    fun side hside => (hsides side hside).2 (hpoints side hside)⟩

/-- A letter, a number and a difference without a right side: the count is right and the text is
solved, as if it said `x-.5`, though it is no expression. -/
theorem strayPoint_solved :
    (∃ solution : Solution Float,
      solveExpression (fun _ => []) .standard typeset "x,5-".toList = some solution ∧
        solution.valid = true) ∧
      (canonicalForm "x,5-".toList).splitOn '=' = ["x.5-".toList] ∧
      ¬ ∃ e, Writes "x.5-".toList e := by
  refine ⟨(Option.any_eq_true ..).1 (by decide +kernel), by decide, ?_⟩
  rintro ⟨e, row, hrow, htext⟩
  have happart : OperandsApart "x.5-".toList := htext ▸ hrow.operandsApart
  exact absurd happart (by decide)

end InkAlgebra

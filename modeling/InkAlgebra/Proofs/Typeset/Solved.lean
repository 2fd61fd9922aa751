import Mathlib
import InkAlgebra.Proofs.Equation.Sides
import InkAlgebra.Proofs.Expression.Simulation

/-!
# What is solved is typeset

An equation is read twice and independently. The solver divides it at its first `=`, reads its
unknown as `x` and runs a machine of polynomials; the typesetter divides it at every `=`, keeps its
letters and runs a machine of formulas. What is solved is typeset all the same, side by side.

A formula refuses nothing: it has an atom for every operand and a shape for every operation. So its
machine follows the one of polynomials (`simulates_polynomial`), from a postfix that has the same
shape. A right side `0` is the one side that is not evaluated, and it is a number.

That the sides can be told apart in what is typeset is part of it: the operands of a formula are
numbers and letters, and none of what is put between them is an `=`.

§1 is formulas without `=`, §2 their machine, §3 sides, §4 equations.
-/

namespace InkAlgebra

/-! ## §1  Formulas without `=` -/

namespace Formula

/-- Whether no operand has an `=` in it. -/
def AtomsPlain : Formula → Prop
  | atom text => '=' ∉ text
  | neg a => a.AtomsPlain
  | binary _ a b => a.AtomsPlain ∧ b.AtomsPlain

theorem equals_not_mem_bracketedIf {text : List Char} (h : '=' ∉ text) (wrap : Bool) :
    '=' ∉ bracketedIf wrap text := by
  unfold bracketedIf bracketed
  cases wrap with
  | false => exact h
  | true =>
      intro hmem
      rcases List.mem_append.1 hmem with hfront | hclose
      · rcases List.mem_append.1 hfront with hopen | htext
        · exact absurd hopen (by decide)
        · exact h htext
      · exact absurd hclose (by decide)

theorem equals_not_mem_braced {text : List Char} (h : '=' ∉ text) : '=' ∉ braced text := by
  simp [braced, h]

/-- Nothing that is put around operands is an `=`. -/
theorem AtomsPlain.equals_not_mem_render {f : Formula} (h : f.AtomsPlain) : '=' ∉ f.render := by
  induction f with
  | atom text => exact h
  | neg a ih => simp [render, equals_not_mem_bracketedIf (ih h)]
  | binary o a b ihA ihB =>
      have hleft := ihA h.1
      have hright := ihB h.2
      cases o with
      | add => simp [render, hleft, equals_not_mem_bracketedIf hright]
      | sub => simp [render, hleft, equals_not_mem_bracketedIf hright]
      | mul =>
          have htimes : ∀ c : Bool, '=' ∉ (if c then "\\times".toList else []) := by decide
          simp only [render, List.mem_append, equals_not_mem_bracketedIf hleft,
            equals_not_mem_bracketedIf hright, htimes, or_self, not_false_eq_true]
      | div =>
          have hfrac : '=' ∉ "\\frac".toList := by decide
          simp only [render, List.mem_append, equals_not_mem_braced hleft,
            equals_not_mem_braced hright, hfrac, or_self, not_false_eq_true]
      | pow | neg | pos =>
          have hpower : '=' ∉ (if 1 < b.render.length then braced b.render else b.render) := by
            split
            · exact equals_not_mem_braced hright
            · exact hright
          simp [render, equals_not_mem_bracketedIf hleft, hpower]

end Formula

/-! ## §2  The machine of formulas -/

theorem equals_not_mem_name {t : Token} (h : t.IsProper) (hplaced : t.isPlaced = true) :
    '=' ∉ t.name := by
  intro hmem
  cases t with
  | number text => exact absurd (h.2 '=' hmem) (by decide)
  | letter c =>
      obtain rfl : '=' = c := List.mem_singleton.1 hmem
      have hletter : isLetter '=' = true := h
      exact absurd hletter (by decide)
  | op o => cases o <;> exact absurd hmem (by decide)
  | opening c | closing c | unknown c => cases hplaced

variable {α : Type} [Coefficient α]

/-- A polynomial for an operand is one for a number or a letter. -/
theorem isPlaced_of_operand {maxDegree : UInt32} {t : Token} {p : Polynomial α}
    (h : (Polynomial.meaning maxDegree).operand t = .ok p) : t.isPlaced = true := by
  cases t with
  | number text | letter c | op o => rfl
  | opening c | closing c | unknown c => cases h

/-- **Formulas follow polynomials.** -/
theorem simulates_polynomial (f : Char → Char) (maxDegree : UInt32) :
    Formula.meaning.Simulates (Polynomial.meaning (α := α) maxDegree) f fun _ formula =>
        formula.AtomsPlain where
  operand t p hproper hp := by
    have hplaced : t.isPlaced = true := by
      have hrelabelled := isPlaced_of_operand hp
      cases t <;> exact hrelabelled
    exact ⟨.atom t.name, rfl, equals_not_mem_name hproper hplaced⟩
  unary o p formula hplain := by
    show (if o = .neg then Formula.neg formula else formula).AtomsPlain
    split
    · exact hplain
    · exact hplain
  binary o _ a _ b _ ha hb _ := ⟨.binary o a b, rfl, ha, hb⟩

/-! ## §3  Sides -/

/-- Whether a text is what is typeset for a side. -/
def TypesetAs (side tex : List Char) : Prop :=
  (Formula.ofExpression side).map Formula.render = .ok tex

theorem exists_typesetAs {f : Char → Char} (hf : Relabels f) {maxDegree : UInt32} {side : List Char}
    (h : SideEvaluated α f maxDegree side) : ∃ tex, TypesetAs side tex ∧ '=' ∉ tex := by
  rcases h with rfl | ⟨p, hp⟩
  · exact ⟨['0'], rfl, by decide⟩
  · obtain ⟨post, hparse, hrun⟩ := exists_run_of_ofExpression hp
    obtain ⟨post', formula, hparse', hrun', hplain⟩ :=
      (simulates_polynomial f maxDegree).exists_value hf hparse hrun
    have hformula : Formula.ofExpression side = .ok formula := by
      rw [Formula.ofExpression, hparse']
      exact hrun'
    exact ⟨formula.render, by rw [TypesetAs, hformula]; rfl, hplain.equals_not_mem_render⟩

/-- The typesetter divides an equation at every `=`. -/
theorem equationSides_eq_splitOn (text : List Char) : equationSides text = text.splitOn '=' := by
  induction text with
  | nil => rfl
  | cons c rest ih =>
      obtain ⟨side, sides, hrest⟩ := List.exists_cons_of_ne_nil (List.splitOn_ne_nil '=' rest)
      rw [equationSides, ih, hrest]
      dsimp only
      rw [List.splitOn_eq_splitOnP] at hrest ⊢
      rw [List.splitOnP_cons_eq_if_modifyHead, hrest]
      by_cases hc : c = '='
      · rw [if_pos hc, if_pos (beq_iff_eq.2 hc)]
      · rw [if_neg hc, if_neg (by simpa using hc)]
        rfl

/-- Where all sides are typeset, so is the equation. -/
theorem typeset_of_typesetAs {text : List Char} {texs : List (List Char)}
    (h : List.Forall₂ TypesetAs (text.splitOn '=') texs) :
    typeset text = .ok ("$$".toList ++ List.intercalate ['='] texs ++ "$$".toList) := by
  have hsides : ∀ {sides texs : List (List Char)}, List.Forall₂ TypesetAs sides texs →
      (sides.mapM fun side => return (← Formula.ofExpression side).render) = .ok texs := by
    intro sides texs h
    induction h with
    | nil => rfl
    | cons htex _ ih =>
        obtain ⟨formula, hformula, rfl⟩ := exists_of_map_eq_ok htex
        rw [List.mapM_cons, ih, hformula]
        rfl
  rw [typeset, equationSides_eq_splitOn, hsides h]
  rfl

/-- Where each side has something without an `=` typeset for it, these are the parts between the `=`
of their row. -/
theorem exists_row_typesetAs {sides : List (List Char)} (hne : sides ≠ [])
    (h : ∀ side ∈ sides, ∃ tex, TypesetAs side tex ∧ '=' ∉ tex) :
    ∃ texs, List.Forall₂ TypesetAs sides texs ∧
        (List.intercalate ['='] texs).splitOn '=' = texs := by
  choose! texOf htexOf using h
  refine ⟨sides.map texOf, ?_, List.splitOn_intercalate '=' ?_ ?_⟩
  · exact List.forall₂_map_right_iff.2 (List.forall₂_same.2 fun side hside => (htexOf side hside).1)
  · exact List.forall_mem_map.2 fun side hside => (htexOf side hside).2
  · exact mt List.map_eq_nil_iff.1 hne

/-! ## §4  Equations -/

/-- **What is solved is typeset.** A valid solution has a typeset text, with `$$` in front and
behind. In between are the sides of the expression as they are typeset, one for each side and in
their order. -/
theorem typeset_of_valid {write : α → List Char} {s : SolverSettings α} {raw : List Char}
    {solution : Solution α} (h : solveExpression write s typeset raw = some solution)
    (hvalid : solution.valid = true) :
    ∃ body, solution.latex.toList = "$$".toList ++ body ++ "$$".toList ∧
      List.Forall₂ TypesetAs (solution.expression.toList.splitOn '=') (body.splitOn '=') := by
  obtain ⟨f, hf, p, hp⟩ := exists_polynomial_of_valid h hvalid
  have hsides : ∀ side ∈ (canonicalForm raw).splitOn '=', ∃ tex,
      TypesetAs side tex ∧ '=' ∉ tex := by
    intro side hside
    exact exists_typesetAs hf ((sideEvaluated_of_equationPolynomial hf hp).2 side hside)
  obtain ⟨texs, htexs, hbody⟩ := exists_row_typesetAs (List.splitOn_ne_nil '=' _) hsides
  obtain ⟨hexpression, hlatex⟩ := texts_of_solveExpression h
  rw [typeset_of_typesetAs htexs] at hlatex
  refine ⟨List.intercalate ['='] texs, ?_, ?_⟩
  · rw [hlatex, String.toList_ofList]
  · rw [hexpression, String.toList_ofList, hbody]
    exact htexs

/-- A letter for the unknown, a decimal that is taken off behind a letter, and a fraction behind a
factor. -/
theorem strayPoint_typeset :
    ∃ solution : Solution Float,
      solveExpression (fun _ => []) .standard typeset "m,5-=3(m:2)".toList = some solution ∧
        solution.valid = true ∧ solution.latex = "$$m-.5=3\\times\\frac\x7bm\x7d\x7b2\x7d$$" ∧
        ∃ body, "$$m-.5=3\\times\\frac\x7bm\x7d\x7b2\x7d$$".toList =
            "$$".toList ++ body ++ "$$".toList ∧
          List.Forall₂ TypesetAs ["m.5-".toList, "3*(m/2)".toList] (body.splitOn '=') := by
  obtain ⟨solution, hsolution, hparts⟩ : ∃ solution : Solution Float,
      solveExpression (fun _ => []) .standard typeset "m,5-=3(m:2)".toList = some solution ∧
        (solution.valid && solution.latex == "$$m-.5=3\\times\\frac\x7bm\x7d\x7b2\x7d$$" &&
          solution.expression.toList.splitOn '=' == ["m.5-".toList, "3*(m/2)".toList]) = true :=
    (Option.any_eq_true ..).1 (by decide +kernel)
  simp only [Bool.and_eq_true, beq_iff_eq] at hparts
  obtain ⟨⟨hvalid, hlatex⟩, hsides⟩ := hparts
  have htypeset := typeset_of_valid hsolution hvalid
  rw [hlatex, hsides] at htypeset
  exact ⟨solution, hsolution, hvalid, hlatex, htypeset⟩

end InkAlgebra

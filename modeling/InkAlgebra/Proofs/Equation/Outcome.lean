import Mathlib
import InkAlgebra.Proofs.Equation.Difference
import InkAlgebra.Proofs.Equation.Renaming
import InkAlgebra.Proofs.Equation.Sides
import InkAlgebra.Proofs.Layout.Arrangement
import InkAlgebra.Proofs.Polynomial.Overflow
import InkAlgebra.Proofs.Roots.Outcome

/-!
# What a solution says

A solution is a record that can be relied on part by part. It is valid, or it has a message, and
never both; it has roots if and only if it is valid, and these are numbers, or one remark in place
of numbers. There is a remark on infinitely many roots exactly if the polynomials of the two sides
cancel. The expression is the canonical form of what was read, also where nothing was solved, and
the typesetter has a say in nothing but the typeset text.

There is no solution at all if and only if a side of the equation breaks off, at a product whose
degrees have no room in a word. Then neither is there one with another typesetter, and it takes more
letters than there is room for times the cap.

§1 is messages, §2 roots, §3 where there is no solution, §4 solutions of texts and of pages.
-/

namespace InkAlgebra

variable {α : Type}

/-! ## §1  Messages -/

theorem append_ne_empty {front : String} (h : front ≠ "") (back : String) : front ++ back ≠ "" := by
  intro heq
  exact h (String.append_eq_empty_iff.1 heq).1

/-- Every cause has words. -/
theorem EvaluationError.reason_ne_empty (write : α → List Char) (e : EvaluationError α) :
    e.reason write ≠ "" := by
  cases e with
  | divisorNotConstant | divisionByZero | exponentNotConstant | severalVariables | noConvergence =>
      exact of_decide_eq_true rfl
  | fractionalPower p | negativePower p | epsilonOutOfRange p =>
      exact append_ne_empty (of_decide_eq_true rfl) _

theorem EquationError.userMessage_ne_empty (write : α → List Char) (e : EquationError α) :
    e.userMessage write ≠ "" := by
  cases e with
  | unreadable cause | tooComplex cause => exact of_decide_eq_true rfl
  | unsolvable cause => exact cause.reason_ne_empty write

/-! ## §2  Roots -/

namespace RootEntry

theorem ofRoots_ne_nil (roots : Roots α) : ofRoots roots ≠ [] := by
  match roots with
  | .infinite => exact List.cons_ne_nil _ _
  | .finite [] => exact List.cons_ne_nil _ _
  | .finite (x :: rest) => exact List.cons_ne_nil _ _

/-- Reported are numbers, or one remark. -/
theorem ofRoots_cases (roots : Roots α) :
    (∀ r ∈ ofRoots roots, ∃ x, r = number x) ∨ ofRoots roots = [noRoots] ∨
        ofRoots roots = [infiniteRoots] := by
  match roots with
  | .infinite => exact .inr (.inr rfl)
  | .finite [] => exact .inr (.inl rfl)
  | .finite (x :: rest) =>
      refine .inl ?_
      intro r hr
      obtain ⟨y, _, rfl⟩ := List.mem_map.1 hr
      exact ⟨y, rfl⟩

theorem infiniteRoots_mem_ofRoots_iff (roots : Roots α) :
    infiniteRoots ∈ ofRoots roots ↔ roots = .infinite := by
  constructor
  · intro h
    match roots with
    | .infinite => rfl
    | .finite [] =>
        have hsame : (infiniteRoots : RootEntry α) = noRoots := List.mem_singleton.1 h
        injection hsame with htext
        exact absurd htext (by decide)
    | .finite (x :: rest) =>
        obtain ⟨y, _, hy⟩ := List.mem_map.1 h
        cases hy
  · rintro rfl
    exact List.mem_singleton_self _

end RootEntry

theorem Roots.rounded_eq_infinite_iff [Coefficient α] (digits : Int32) (roots : Roots α) :
    roots.rounded digits = .infinite ↔ roots = .infinite := by
  cases roots with
  | finite roots =>
      constructor
      · intro h
        cases h
      · intro h
        cases h
  | infinite => exact Iff.rfl

section

variable [Coefficient α]

/-- Only the polynomial without terms is zero everywhere. -/
theorem Polynomial.eq_infinite_iff_of_solve {p : Polynomial α} {s : SolverSettings α}
    {found : Roots α} (h : p.solve s = .ok found) : found = .infinite ↔ p.terms = [] := by
  have hcap : ¬ s.maxDegree < p.degree := by
    intro hcap
    rw [solve, if_pos hcap] at h
    cases h
  have hzero : p.isZero = true ↔ p.terms = [] := List.isEmpty_iff
  by_cases hconstant : p.degree.toNat = 0
  · rw [solve_of_degree_eq_zero hcap hconstant] at h
    rw [← Except.ok.inj h, ← hzero]
    cases p.isZero with
    | true => exact iff_of_true rfl rfl
    | false => exact iff_of_false (by rintro ⟨⟩) (by decide)
  · have hterms : ¬ p.terms = [] := by
      rw [← hzero, isZero_eq_false_of_degree_ne_zero hconstant]
      decide
    refine iff_of_false ?_ hterms
    by_cases hlinear : p.degree.toNat = 1
    · rw [solve_of_degree_eq_one hcap hlinear] at h
      rintro rfl
      cases h
    · obtain ⟨_, roots, _, _, rfl⟩ := exists_of_solve_eq_ok (by omega) h
      rintro ⟨⟩

/-- The difference of the polynomials of both sides; a side that is missing is `0`. -/
def sidesDifference (maxDegree : UInt32) (text : List Char) :
    Except (Halt (EquationError α)) (Polynomial α) := do
  let left ← Polynomial.ofExpression maxDegree (splitEquation text).1
  let right ← Polynomial.ofExpression maxDegree ((splitEquation text).2.getD ['0'])
  return left.minus right

/-- A right side `0`, written or not, need not be subtracted. -/
theorem equationPolynomial_eq_sidesDifference [LawfulZero α] (maxDegree : UInt32)
    (text : List Char) :
    equationPolynomial (α := α) maxDegree text = sidesDifference maxDegree text := by
  have hzero : ∀ left : List Char, Polynomial.ofExpression (α := α) maxDegree left = (do
      let p ← Polynomial.ofExpression maxDegree left
      let q ← Polynomial.ofExpression maxDegree ['0']
      return p.minus q) := by
    intro left
    rw [ofExpression_zero]
    cases hleft : Polynomial.ofExpression (α := α) maxDegree left with
    | error e => rfl
    | ok p => exact congrArg Except.ok (Polynomial.reduced_of_ofExpression hleft).minus_zero.symm
  unfold equationPolynomial sidesDifference
  split
  · rename_i left heq
    rw [heq]
    exact hzero left
  · rename_i left heq
    rw [heq]
    exact hzero left
  · rename_i left right _ heq
    rw [heq]
    rfl

/-- Where an equation is solved, both sides have polynomials, and all numbers are roots exactly if
these cancel. -/
theorem exists_sidesDifference_of_solveEquation [LawfulZero α] {s : SolverSettings α}
    {text : List Char} {roots : Roots α} (h : solveEquation s text = .ok roots) :
    ∃ p : Polynomial α, sidesDifference s.maxDegree text = .ok p ∧
      (roots = .infinite ↔ p.terms = []) := by
  obtain ⟨_, _, h⟩ := exists_of_bind_eq_ok h
  obtain ⟨p, hp, h⟩ := exists_of_bind_eq_ok h
  obtain ⟨found, hfound, h⟩ := exists_of_bind_eq_ok h
  obtain ⟨digits, _, h⟩ := exists_of_bind_eq_ok h
  obtain rfl := Except.ok.inj h
  refine ⟨p, ?_, ?_⟩
  · rw [← equationPolynomial_eq_sidesDifference, hp]
  · rw [Roots.rounded_eq_infinite_iff, Polynomial.eq_infinite_iff_of_solve hfound]

/-! ## §3  Where there is no solution -/

/-- **Solving breaks off** exactly where a side does: with accepted settings there are places to
round roots to. -/
theorem solveEquation_eq_overflow_iff [LawfulZero α] [LawfulDecades α] {s : SolverSettings α}
    {text : List Char} : solveEquation s text = .error .overflow ↔
      s.validate = .ok () ∧ sidesDifference (α := α) s.maxDegree text = .error .overflow := by
  constructor
  · intro h
    rcases exists_of_bind_eq_error h with h | ⟨_, hvalidate, h⟩
    · obtain ⟨cause, _, heq⟩ := exists_of_mapError_eq_error h
      cases heq
    have hvalid : s.validate = .ok () := eq_ok_of_mapError hvalidate
    rcases exists_of_bind_eq_error h with h | ⟨p, _, h⟩
    · rw [equationPolynomial_eq_sidesDifference] at h
      exact ⟨hvalid, h⟩
    obtain ⟨digits, hdigits⟩ := SolverSettings.exists_digits_of_validate hvalid
    rcases exists_of_bind_eq_error h with h | ⟨found, _, h⟩
    · exact absurd h (Polynomial.solve_ne_overflow hdigits)
    · rw [hdigits] at h
      cases h
  · rintro ⟨hvalid, hsides⟩
    rw [solveEquation, hvalid, equationPolynomial_eq_sidesDifference, hsides]
    rfl

/-- Whether a text breaks off: it is in one unknown, and a side comes to a product whose degrees
have no room. -/
def BreaksOff (s : SolverSettings α) (raw : List Char) : Prop :=
  s.validate = .ok () ∧
    ∃ inX unknown, inOneUnknown (α := α) (canonicalForm raw) = .ok (inX, unknown) ∧
    sidesDifference (α := α) s.maxDegree inX = .error .overflow

theorem solveCanonical_eq_overflow_iff [LawfulZero α] [LawfulDecades α] {s : SolverSettings α}
    {raw : List Char} :
    (solveCanonical s (canonicalForm raw)).2 = .error .overflow ↔ BreaksOff s raw := by
  unfold solveCanonical BreaksOff
  cases hinX : inOneUnknown (α := α) (canonicalForm raw) with
  | error cause =>
      refine ⟨nofun, ?_⟩
      rintro ⟨_, inX, unknown, hnone, _⟩
      cases hnone
  | ok found =>
      obtain ⟨inX, unknown⟩ := found
      refine solveEquation_eq_overflow_iff.trans (and_congr_right' ⟨?_, ?_⟩)
      · exact fun h => ⟨inX, unknown, rfl, h⟩
      · rintro ⟨_, _, hsame, h⟩
        cases hsame
        exact h

/-- As long as the cap leaves room for each place where the variable is written, no side breaks
off. -/
theorem sidesDifference_ne_overflow_of_count [LawfulCap α] {cap : UInt32} {text : List Char}
    (h : text.count 'x' * max cap.toNat 1 < UInt32.size) :
    sidesDifference (α := α) cap text ≠ .error .overflow := by
  intro hoverflow
  have hside : ∀ side : List Char, side.count 'x' ≤ text.count 'x' →
      Polynomial.ofExpression (α := α) cap side ≠ .error .overflow :=
    fun side hside => Polynomial.ofExpression_ne_overflow_of_count
      ((Nat.mul_le_mul_right _ hside).trans_lt h)
  have hright : ((splitEquation text).2.getD ['0']).count 'x' ≤ text.count 'x' := by
    unfold splitEquation
    cases hdrop : text.dropWhile (· ≠ '=') with
    | nil => exact Nat.zero_le _
    | cons c right =>
        have hsuffix : (c :: right).Sublist text := hdrop ▸ (List.dropWhile_suffix _).sublist
        exact ((List.sublist_cons_self c right).trans hsuffix).count_le 'x'
  rcases exists_of_bind_eq_error hoverflow with hoverflow | ⟨p, _, hoverflow⟩
  · exact hside _ ((List.takeWhile_prefix _).sublist.count_le 'x') hoverflow
  rcases exists_of_bind_eq_error hoverflow with hoverflow | ⟨q, _, hoverflow⟩
  · exact hside _ hright hoverflow
  · cases hoverflow

/-- As long as the cap leaves room for each letter of a text, it breaks off neither as an expression
nor, in whatever letters, as an equation. -/
theorem ne_overflow_of_countP [LawfulZero α] [LawfulCap α] {cap : UInt32} {text : List Char}
    (h : text.countP isLetter * max cap.toNat 1 < UInt32.size) :
    Polynomial.ofExpression (α := α) cap text ≠ .error .overflow ∧
      ∀ f, Relabels f → equationPolynomial (α := α) cap (text.map f) ≠ .error .overflow := by
  have hcount : ∀ f, Relabels f → (text.map f).count 'x' * max cap.toNat 1 < UInt32.size :=
    fun f hf => (Nat.mul_le_mul_right _ (hf.count_map_le text)).trans_lt h
  constructor
  · have hself := hcount id fun _ => .inl rfl
    rw [List.map_id] at hself
    exact Polynomial.ofExpression_ne_overflow_of_count hself
  · intro f hf
    rw [equationPolynomial_eq_sidesDifference]
    exact sidesDifference_ne_overflow_of_count (hcount f hf)

/-- **Few letters.** As long as the cap leaves room for each letter of a text, it does not break
off. -/
theorem not_breaksOff_of_count [LawfulCap α] {s : SolverSettings α} {raw : List Char}
    (h : raw.countP isLetter * max s.maxDegree.toNat 1 < UInt32.size) : ¬ BreaksOff s raw := by
  rintro ⟨_, inX, unknown, hinX, hoverflow⟩
  obtain ⟨f, hf, rfl⟩ := exists_relabels_of_inOneUnknown hinX
  have hcount := hf.count_map_le (canonicalForm raw)
  rw [countP_isLetter_canonicalForm] at hcount
  exact sidesDifference_ne_overflow_of_count ((Nat.mul_le_mul_right _ hcount).trans_lt h) hoverflow

end

/-! ## §4  Solutions -/

namespace Solution

/-- Whether the parts of a solution fit together. -/
structure Consistent (o : Solution α) : Prop where
  message_eq_iff : o.message = "" ↔ o.valid = true
  roots_ne_nil_iff : o.roots ≠ [] ↔ o.valid = true
  roots_of_valid : o.valid = true →
    (∀ r ∈ o.roots, ∃ x, r = .number x) ∨ o.roots = [.noRoots] ∨ o.roots = [.infiniteRoots]

/-- A solution that says what went wrong, and no more. -/
theorem Consistent.of_message {o : Solution α} (hvalid : o.valid = false)
    (hmessage : o.message ≠ "") (hroots : o.roots = []) : o.Consistent where
  message_eq_iff := iff_of_false hmessage (by rw [hvalid]; decide)
  roots_ne_nil_iff := iff_of_false (not_not_intro hroots) (by rw [hvalid]; decide)
  roots_of_valid h := by
    rw [hvalid] at h
    cases h

theorem Consistent.of_roots {o : Solution α} (hvalid : o.valid = true)
    (hmessage : o.message = "") {roots : Roots α}
    (hroots : o.roots = RootEntry.ofRoots roots) : o.Consistent where
  message_eq_iff := iff_of_true hmessage hvalid
  roots_ne_nil_iff := iff_of_true (by rw [hroots]; exact RootEntry.ofRoots_ne_nil roots) hvalid
  roots_of_valid _ := by
    rw [hroots]
    exact RootEntry.ofRoots_cases roots

end Solution

variable [Coefficient α]

/-- Whether a solution is about a text: it has its canonical form for an expression, and where it is
valid, the text is in one unknown, and infinitely many roots are reported exactly if its two sides
cancel. -/
structure Solution.IsAbout (o : Solution α) (s : SolverSettings α) (raw : List Char) : Prop where
  expression_eq : o.expression = String.ofList (canonicalForm raw)
  infinite_iff : o.valid = true →
    ∃ (inX : List Char) (p : Polynomial α), inOneUnknown (α := α) (canonicalForm raw) =
      .ok (inX, o.unknown) ∧
      sidesDifference s.maxDegree inX = .ok p ∧ (.infiniteRoots ∈ o.roots ↔ p.terms = [])

variable (write : α → List Char) (s : SolverSettings α) (typesetter : Typesetter)

/-- A text has a solution unless it breaks off. -/
theorem solveExpression_eq_none_iff [LawfulZero α] [LawfulDecades α] (raw : List Char) :
    solveExpression write s typesetter raw = none ↔ BreaksOff s raw := by
  rw [← solveCanonical_eq_overflow_iff, solveExpression]
  dsimp only
  rcases (solveCanonical s (canonicalForm raw)).2 with (_ | e) | roots
  · exact iff_of_true rfl rfl
  · exact iff_of_false nofun nofun
  · exact iff_of_false nofun nofun

variable {write s typesetter}

theorem consistent_of_solveExpression {raw : List Char} {o : Solution α}
    (h : solveExpression write s typesetter raw = some o) : o.Consistent := by
  unfold solveExpression at h
  dsimp only at h
  split at h
  · cases h
    exact .of_roots rfl rfl rfl
  · rename_i e _
    cases h
    exact .of_message rfl (e.userMessage_ne_empty write) rfl
  · cases h

theorem isAbout_of_solveExpression [LawfulZero α] {raw : List Char} {o : Solution α}
    (h : solveExpression write s typesetter raw = some o) : o.IsAbout s raw where
  expression_eq := (texts_of_solveExpression h).1
  infinite_iff hvalid := by
    unfold solveExpression at h
    dsimp only at h
    cases hinX : inOneUnknown (α := α) (canonicalForm raw) with
    | error cause =>
        rw [solveCanonical, hinX] at h
        cases h
        cases hvalid
    | ok found =>
        have hsolve : solveCanonical s (canonicalForm raw) =
            (found.2, solveEquation s found.1) := by
          rw [solveCanonical, hinX]
        rw [hsolve] at h
        cases hroots : solveEquation s found.1 with
        | error e =>
            rw [hroots] at h
            cases e with
            | overflow => cases h
            | failed e =>
                cases h
                cases hvalid
        | ok roots =>
            rw [hroots] at h
            cases h
            obtain ⟨p, hp, hinfinite⟩ := exists_sidesDifference_of_solveEquation hroots
            refine ⟨found.1, p, rfl, hp, ?_⟩
            rw [← hinfinite]
            exact RootEntry.infiniteRoots_mem_ofRoots_iff roots

/-- Whether two solutions differ in the typeset text at most. -/
def Solution.SameButLatex (o o' : Solution α) : Prop := { o with latex := o'.latex } = o'

variable (write s typesetter)

theorem sameButLatex_solveExpression (other : Typesetter) (raw : List Char) :
    Option.Rel Solution.SameButLatex (solveExpression write s typesetter raw)
      (solveExpression write s other raw) := by
  unfold solveExpression
  dsimp only
  rcases (solveCanonical s (canonicalForm raw)).2 with (_ | e) | roots
  · exact .none
  · exact .some rfl
  · exact .some rfl

section

variable {κ : Type} [Coordinate κ] (p : Page κ) {detections : List (Detection κ)}

theorem solvePage_of_ok {raw : List Char} (h : assemble p detections = .ok raw) :
    solvePage write p s typesetter detections = solveExpression write s typesetter raw := by
  rw [solvePage, h]

/-- A page that nests too deep is about nothing. -/
theorem exists_solvePage_of_error {e : LimitPassed} (h : assemble p detections = .error e) :
    ∃ o, (∀ other, solvePage write p s other detections = some o) ∧ o.valid = false ∧
      o.Consistent := by
  unfold solvePage
  rw [h]
  exact ⟨_, fun _ => rfl, rfl,
    .of_message rfl (EquationError.userMessage_ne_empty write (.tooComplex e)) rfl⟩

end

/-- **What a solution promises.** A text, and a page alike, has a solution, unless it breaks off,
which it does not as long as the cap leaves room for its letters. The parts of a solution fit
together. It is about the text, and a page's about what the page is assembled to: only a page that
is assembled has a valid one. Another typesetter changes the typeset text at most. -/
theorem solutions_consistent_and_isAbout [LawfulZero α] [LawfulCap α] [LawfulDecades α] {κ : Type}
    [Coordinate κ] (p : Page κ) :
    (∀ raw : List Char,
      (solveExpression write s typesetter raw = none ↔ BreaksOff s raw) ∧
      (raw.countP isLetter * max s.maxDegree.toNat 1 < UInt32.size → ¬ BreaksOff s raw) ∧
      (∀ o, solveExpression write s typesetter raw = some o → o.Consistent ∧ o.IsAbout s raw) ∧
      ∀ other : Typesetter, Option.Rel Solution.SameButLatex
        (solveExpression write s typesetter raw) (solveExpression write s other raw)) ∧
    ∀ detections : List (Detection κ),
      (solvePage write p s typesetter detections = none ↔
        ∃ raw, assemble p detections = .ok raw ∧ BreaksOff s raw) ∧
      (∀ o, solvePage write p s typesetter detections = some o →
        o.Consistent ∧ (∀ raw, assemble p detections = .ok raw → o.IsAbout s raw) ∧
          (o.valid = true → ∃ raw, assemble p detections = .ok raw)) ∧
      ∀ other : Typesetter, Option.Rel Solution.SameButLatex
        (solvePage write p s typesetter detections) (solvePage write p s other detections) := by
  constructor
  · intro raw
    exact ⟨solveExpression_eq_none_iff write s typesetter raw, not_breaksOff_of_count,
      fun o h => ⟨consistent_of_solveExpression h, isAbout_of_solveExpression h⟩,
      fun other => sameButLatex_solveExpression write s typesetter other raw⟩
  intro detections
  cases hpage : assemble p detections with
  | ok raw =>
      simp only [solvePage_of_ok write s _ p hpage]
      refine ⟨?_, ?_, fun other => sameButLatex_solveExpression write s typesetter other raw⟩
      · rw [solveExpression_eq_none_iff]
        refine ⟨fun h => ⟨raw, rfl, h⟩, ?_⟩
        rintro ⟨_, ⟨⟩, h⟩
        exact h
      · intro o h
        refine ⟨consistent_of_solveExpression h, ?_, fun _ => ⟨raw, rfl⟩⟩
        rintro _ ⟨⟩
        exact isAbout_of_solveExpression h
  | error e =>
      obtain ⟨o, hsolution, hvalid, hconsistent⟩ := exists_solvePage_of_error write s p hpage
      simp only [hsolution]
      refine ⟨⟨nofun, ?_⟩, ?_, fun other => .some rfl⟩
      · rintro ⟨_, ⟨⟩, _⟩
      · rintro _ ⟨⟩
        refine ⟨hconsistent, ?_, ?_⟩
        · rintro _ ⟨⟩
        · rw [hvalid]
          rintro ⟨⟩

/-- A text whose sides cancel, and a page that is solved, whatever typesets it. -/
theorem cancelling_and_halvedSum_consistent :
    (∃ o, solveExpression (fun _ => []) (.standard : SolverSettings Float) typeset "2x=x+x".toList =
        some o ∧ .infiniteRoots ∈ o.roots) ∧
      ∃ o o', solvePage (fun _ => []) standardPage (.standard : SolverSettings Float) typeset
          halvedSum = some o ∧
        solvePage (fun _ => []) standardPage .standard (fun _ =>
          .error .malformed) halvedSum = some o' ∧
        o.roots ≠ [] ∧ o.SameButLatex o' := by
  obtain ⟨htyped, hdrawn⟩ := solutions_consistent_and_isAbout (fun _ => [])
    (.standard : SolverSettings Float) typeset standardPage
  constructor
  · obtain ⟨-, -, hparts, -⟩ := htyped "2x=x+x".toList
    obtain ⟨o, hsolution, hvalid⟩ :
        ∃ o, solveExpression (fun _ => []) (.standard : SolverSettings Float)
        typeset "2x=x+x".toList = some o ∧ o.valid = true :=
      (Option.any_eq_true ..).1 (by decide +kernel)
    obtain ⟨inX, p, hinX, hp, hinfinite⟩ := (hparts o hsolution).2.infinite_iff hvalid
    have hread : (inOneUnknown (α := Float) (canonicalForm "2x=x+x".toList)).toOption.map Prod.fst =
        some "2*x=x+x".toList := by decide +kernel
    have hcancel :
        (sidesDifference (α := Float) (SolverSettings.standard : SolverSettings Float).maxDegree
        "2*x=x+x".toList).toOption.any (fun p => p.terms.isEmpty) = true := by
      decide +kernel
    obtain rfl : inX = "2*x=x+x".toList := by
      rw [hinX] at hread
      exact Option.some.inj hread
    rw [hp] at hcancel
    exact ⟨o, hsolution, hinfinite.2 (List.isEmpty_iff.1 hcancel)⟩
  · obtain ⟨-, hparts, hsame⟩ := hdrawn halvedSum
    have hsorted : FromLeft (halvedSum.map (.ofDetection standardPage.geometry)) := by
      decide +kernel
    have htext : assemble standardPage halvedSum = .ok "(x+3^2)/2".toList := by
      rw [assemble, hsorted.assembleRow_eq]
      decide +kernel
    obtain ⟨o, hsolution, hvalid⟩ : ∃ o, solvePage (fun _ => []) standardPage
        (.standard : SolverSettings Float) typeset halvedSum = some o ∧ o.valid = true := by
      rw [solvePage_of_ok _ _ _ _ htext]
      exact (Option.any_eq_true ..).1 (by decide +kernel)
    have hother := hsame fun _ => .error .malformed
    rw [hsolution] at hother
    generalize hresult : solvePage (fun _ => []) standardPage (.standard : SolverSettings Float)
      (fun _ => .error .malformed) halvedSum = result at hother
    obtain ⟨hrel⟩ := hother
    exact ⟨o, _, hsolution, rfl, (hparts o hsolution).1.roots_ne_nil_iff.2 hvalid, hrel⟩

/-- With the widest cap there is room for the first power, but none for its product with the
letter. -/
theorem widestPower_has_no_solution :
    (solveExpression (fun _ => [])
      { epsilon := Coefficient.ofDecimal 1 (-5), maxDegree := 4294967295 }
      typeset "x^4294967295*x".toList : Option (Solution Float)) = none :=
  Option.isNone_iff_eq_none.1 (by decide +kernel)

end InkAlgebra

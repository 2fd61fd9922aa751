import Mathlib
import InkAlgebra.Proofs.Layout.Ledger

/-!
# The points of products

Behind a power the layout writes a point, for the product with what follows, unless the next symbol
is an operator. What follows need not be an operand: a closing bracket, a decimal separator and a
sign of no class are no operators, and in front of a fraction nobody looks at the numerator. But one
of the operators that put a side in brackets never follows.

§1 is what can follow a mark, §2 that rows are not empty, §3 what follows the marks of a row, §4
whole pages.
-/

namespace InkAlgebra

variable {κ : Type}

/-! ## §1  Operands -/

namespace Label

/-- Whether a character starts an operand. -/
def opensOperand (c : Char) : Bool := c.isDigit || isLetter c || isOpeningBracket [c]

/-- The signs that have a class: operators, decimal separators, and brackets of both sides. -/
def signs : List Char :=
  ['+', '-', '*', '/', '^', '=', ':', ',', '.', '(', ')', '[', ']', '\x7b', '\x7d']

/-- Whether a character is neither a digit nor a letter nor one of the signs that have a class. -/
def isForeign (c : Char) : Bool := !c.isDigit && !isLetter c && c ∉ signs

theorem isOperator_single_iff {c : Char} :
    isOperator [c] = true ↔ c ∈ Candidate.operators ∨ c = ':' := by
  simp only [isOperator, Candidate.operators, List.mem_cons, List.not_mem_nil, or_false,
    decide_eq_true_eq, List.cons.injEq, and_true]
  tauto

/-- A sign opens an operand only if it is an opening bracket. -/
theorem mem_signs_iff {c : Char} (h : c ∉ Candidate.operators) :
    c ∈ signs ↔ c = ':' ∨ isDecimalSeparator [c] = true ∨ isClosingBracket [c] = true ∨
      isOpeningBracket [c] = true := by
  simp only [Candidate.operators, List.mem_cons, List.not_mem_nil, or_false, not_or] at h
  simp only [signs, isDecimalSeparator, isClosingBracket, isOpeningBracket, List.mem_cons,
    List.not_mem_nil, or_false, decide_eq_true_eq, List.cons.injEq, and_true]
  tauto

/-- Of what is no operator, colons, closing brackets, decimal separators and foreign signs start no
operand, and all else does. -/
theorem opensOperand_iff {c : Char} (h : c ∉ Candidate.operators) :
    opensOperand c = true ↔
      c ≠ ':' ∧ isDecimalSeparator [c] = false ∧ isClosingBracket [c] = false ∧
        isForeign c = false := by
  have hothers : [':', ',', '.', ')', ']', '\x7d'].any opensOperand = false := by decide
  constructor
  · intro hopens
    have hother : c ∉ [':', ',', '.', ')', ']', '\x7d'] :=
      fun hc => List.any_eq_false.1 hothers c hc hopens
    have hclass : isForeign c = false := by
      simp only [opensOperand, Bool.or_eq_true, or_assoc] at hopens
      rw [isForeign, Bool.and_eq_false_iff, Bool.and_eq_false_iff, Bool.not_eq_false',
        Bool.not_eq_false', decide_eq_false_iff_not, not_not]
      rcases hopens with hdigit | hletter | hopening
      · exact .inl (.inl hdigit)
      · exact .inl (.inr hletter)
      · exact .inr ((mem_signs_iff h).2 (.inr (.inr (.inr hopening))))
    simp only [List.mem_cons, List.not_mem_nil, or_false, not_or] at hother
    simp [isDecimalSeparator, isClosingBracket, hclass, hother]
  · rintro ⟨hcolon, hseparator, hclosing, hforeign⟩
    rw [isForeign, Bool.and_eq_false_iff, Bool.and_eq_false_iff, Bool.not_eq_false',
      Bool.not_eq_false', decide_eq_false_iff_not, not_not] at hforeign
    rcases hforeign with (hdigit | hletter) | hsign
    · simp [opensOperand, hdigit]
    · simp [opensOperand, hletter]
    · rw [mem_signs_iff h, hseparator, hclosing] at hsign
      rcases hsign with rfl | hfalse | hfalse | hopening
      · exact absurd rfl hcolon
      · cases hfalse
      · cases hfalse
      · simp [opensOperand, hopening]

/-- Operators and the colon carry no script. -/
theorem not_mem_operators_of_canCarryScript {c : Char} (h : canCarryScript [c] = true) :
    c ∉ Candidate.operators ∧ c ≠ ':' := by
  constructor
  · intro hc
    simp only [Candidate.operators, List.mem_cons, List.not_mem_nil, or_false] at hc
    rcases hc with rfl | rfl | rfl | rfl | rfl | rfl <;> exact absurd h (by decide)
  · rintro rfl
    exact absurd h (by decide)

end Label

namespace Layout

def isFraction : Layout κ → Bool
  | fraction .. => true
  | _ => false

/-- What stands behind the marks of a row and of the rows inside it. -/
def behindMarks : Layout κ → List (Layout κ)
  | nil => []
  | symbol _ rest => rest.behindMarks
  | fraction _ _ _ num den rest => num.behindMarks ++ den.behindMarks ++ rest.behindMarks
  | power base script rest =>
    base.behindMarks ++ script.behindMarks ++ (if rest.mark =
      [] then [] else [rest]) ++ rest.behindMarks

theorem count_point_bracketedIfAny (operators text : List Char) :
    (bracketedIfAny operators text).count '.' = text.count '.' := by
  unfold bracketedIfAny
  split <;> simp

theorem count_point_mark (l : Layout κ) :
    l.mark.count '.' = (if l.mark = [] then [] else [l]).length := by
  cases l with
  | nil => rfl
  | symbol leaf rest =>
      by_cases hop : Label.isOperator leaf.text = true
      · rw [mark, if_pos hop]
        rfl
      · rw [mark, if_neg hop]
        rfl
  | fraction => rfl
  | power => rfl

/-- The points of a text are those of labels and the marks of products. -/
theorem count_point_text (l : Layout κ) :
    l.text.count '.' = (labels l.symbols).count '.' + l.behindMarks.length := by
  induction l with
  | nil => rfl
  | symbol leaf rest ih =>
      have hlabels : labels (leaf :: rest.symbols) = leaf.text + labels rest.symbols := rfl
      rw [text, symbols, behindMarks, hlabels, List.count_append, Multiset.count_add,
        Multiset.coe_count, ih, add_assoc]
  | fraction bar between bracketed num den rest ihNum ihDen ihRest =>
      have hquotient : (quotientText num.text den.text).count '.' =
          num.text.count '.' + den.text.count '.' := by
        simp [quotientText, count_point_bracketedIfAny]
      have htext : (fraction bar between bracketed num den rest).text.count '.' =
          (quotientText num.text den.text).count '.' + rest.text.count '.' := by
        cases bracketed <;> simp [text]
      rw [htext, hquotient, symbols, behindMarks, labels_append, labels_append, Multiset.count_add,
        Multiset.count_add, List.length_append, List.length_append, ihNum, ihDen, ihRest]
      omega
  | power base script rest ihBase ihScript ihRest =>
      have htext : (power base script rest).text.count '.' =
          base.text.count '.' + script.text.count '.' + rest.mark.count '.' +
            rest.text.count '.' := by
        simp [text, count_point_bracketedIfAny, add_assoc]
      rw [htext, symbols, behindMarks, labels_append, labels_append, Multiset.count_add,
        Multiset.count_add, List.length_append, List.length_append, List.length_append, ihBase,
        ihScript, ihRest, count_point_mark]
      omega

theorem mark_eq_point {l : Layout κ} (h : l.mark ≠ []) : l.mark = ['.'] := by
  cases l with
  | nil => exact absurd rfl h
  | symbol leaf rest =>
      rw [mark] at h ⊢
      split at h
      · exact absurd rfl h
      case isFalse hop => exact if_neg hop
  | fraction => rfl
  | power => rfl

theorem infix_bracketedIfAny (operators text : List Char) :
    text <:+: bracketedIfAny operators text := by
  unfold bracketedIfAny
  split
  · exact ⟨['('], [')'], rfl⟩
  · exact List.infix_rfl

/-- Right behind the marks of a row stands, in its text, what `behindMarks` lists. -/
theorem infix_of_mem_behindMarks {l rest : Layout κ} (h : rest ∈ l.behindMarks) :
    ('.' :: rest.text) <:+: l.text := by
  induction l with
  | nil => exact absurd h List.not_mem_nil
  | symbol leaf tail ih => exact (ih h).trans (List.suffix_append _ _).isInfix
  | fraction bar between bracketed num den tail ihNum ihDen ihTail =>
      have hquotient : quotientText num.text den.text <:+:
          (fraction bar between bracketed num den tail).text := by
        cases bracketed
        · exact (List.prefix_append _ _).isInfix
        · exact ⟨['('], ')' :: tail.text, by simp [text]⟩
      simp only [behindMarks, List.mem_append] at h
      rcases h with (h | h) | h
      · exact ((ihNum h).trans (infix_bracketedIfAny _ _)).trans
          ((List.prefix_append _ _).isInfix.trans hquotient)
      · exact ((ihDen h).trans (infix_bracketedIfAny _ _)).trans
          (((List.suffix_cons _ _).trans (List.suffix_append _ _)).isInfix.trans hquotient)
      · exact (ihTail h).trans (List.suffix_append _ _).isInfix
  | power base script tail ihBase ihScript ihTail =>
      have htext : (power base script tail).text =
          base.text ++ '^' :: (bracketedIfAny Page.scriptOperators script.text ++
              (tail.mark ++ tail.text)) := by
        simp [text]
      have hbehind : tail.mark ++ tail.text <:+: (power base script tail).text :=
        ⟨base.text ++ '^' :: bracketedIfAny Page.scriptOperators script.text, [], by simp [htext]⟩
      simp only [behindMarks, List.mem_append] at h
      rcases h with ((h | h) | h) | h
      · exact (ihBase h).trans ⟨[], _, by rw [htext]; rfl⟩
      · exact ((ihScript h).trans (infix_bracketedIfAny Page.scriptOperators _)).trans
          ⟨base.text ++ ['^'], tail.mark ++ tail.text, by simp [htext]⟩
      · split at h
        · exact absurd h List.not_mem_nil
        case isFalse hmark =>
          obtain rfl := List.mem_singleton.1 h
          rwa [mark_eq_point hmark] at hbehind
      · exact ((ihTail h).trans (List.suffix_append _ _).isInfix).trans hbehind

/-- A quotient starts with no operator: a numerator with an operator in it is in brackets. -/
theorem exists_cons_quotientText {num den : List Char} (h : num ≠ []) :
    ∃ c more, quotientText num den = c :: more ∧ c ∉ Candidate.operators := by
  unfold quotientText bracketedIfAny
  by_cases hany : num.any (· ∈ Candidate.operators) = true
  · rw [if_pos hany]
    exact ⟨'(', _, rfl, by decide⟩
  · rw [if_neg hany]
    obtain ⟨c, more, rfl⟩ := List.exists_cons_of_ne_nil h
    refine ⟨c, _, rfl, fun hc => hany ?_⟩
    rw [List.any_cons, decide_eq_true hc, Bool.true_or]

/-- Whether a row starts with a character that may follow a mark: no operator, unless it is the
colon in front of a numerator. -/
def FollowsMark (l : Layout κ) : Prop :=
  ∃ c more, l.text = c :: more ∧ c ∉ Candidate.operators ∧ (c = ':' → l.isFraction = true)

end Layout

/-! ## §2  Rows that are not empty -/

namespace Candidate

variable [Coordinate κ] {leaves : List (Leaf κ)} {c : Candidate κ} {place : ℕ}

theorem sublist_sideOf (leaves : List (Leaf κ)) (bar : Leaf κ) (place : ℕ)
    (onSide : Leaf κ → Bool) :
    ((sideOf bar place onSide leaves).map (·.1)).Sublist leaves := by
  have hsub : (sideOf bar place onSide leaves).Sublist leaves.zipIdx := List.filter_sublist
  have hmap := hsub.map Prod.fst
  rwa [List.zipIdx_map_fst] at hmap

/-- The sides of a fraction are drawn from its row, in their order. -/
theorem IsAt.sides_sublist (h : c.IsAt leaves place) :
    c.numerator.Sublist leaves ∧ c.denominator.Sublist leaves := by
  obtain ⟨_, _, rfl, rfl, _, _, hc⟩ := exists_sides_of_ofBar? h.ofBar
  rw [hc]
  exact ⟨sublist_sideOf .., sublist_sideOf ..⟩

theorem IsAt.numerator_ne_nil (h : c.IsAt leaves place) : c.numerator ≠ [] := by
  obtain ⟨above, below, _, _, habove, _, hc⟩ := exists_sides_of_ofBar? h.ofBar
  rw [hc]
  exact mt List.map_eq_nil_iff.1 habove

end Candidate

/-- The leaves of a script are drawn from its row, in their order. -/
theorem Page.scriptLeaves_sublist (leaves : List (Leaf κ)) (first : Node κ) (more : List (Node κ)) :
    (scriptLeaves leaves first more).Sublist leaves :=
  (List.take_sublist ..).trans (List.drop_sublist ..)

theorem splice_ne_nil {place : ℕ} {leaves : List (Leaf κ)} (h : leaves ≠ [])
    (fractions : List (Composite κ)) :
    splice place leaves fractions ≠ [] := by
  cases leaves with
  | nil => exact absurd rfl h
  | cons leaf rest =>
      rw [splice]
      split
      · split <;> exact List.cons_ne_nil _ _
      · exact List.cons_ne_nil _ _

namespace Page

variable [Coordinate κ] {p : Page κ} {inner : List (Leaf κ) → Layout κ → Prop} {levels : ℕ}
  {leaves row : List (Leaf κ)} {nodes : List (Node κ)} {l : Layout κ}

theorem LaysNodes.text_ne_nil (hlabels : ∀ leaf ∈ leaves, leaf.text ≠ [])
    (h : p.LaysNodes inner levels leaves nodes l) (hnodes : nodes ≠ []) : l.text ≠ [] := by
  cases h with
  | nil => exact absurd rfl hnodes
  | symbol hplace _ _ =>
      exact List.append_ne_nil_of_left_ne_nil (hlabels _ (List.mem_of_getElem? hplace)) _
  | fraction bracketed _ _ _ _ =>
      apply List.append_ne_nil_of_left_ne_nil
      cases bracketed
      · exact List.append_ne_nil_of_right_ne_nil _ (List.cons_ne_nil _ _)
      · exact List.cons_ne_nil _ _
  | power _ _ _ _ _ _ =>
      simp [Layout.text]

theorem LaysRow.text_ne_nil (hlabels : ∀ leaf ∈ row, leaf.text ≠ []) (h : p.LaysRow levels row l)
    (hrow : row ≠ []) : l.text ≠ [] := by
  cases levels with
  | zero => exact h.elim
  | succ levels =>
      obtain ⟨fractions, _, hnodes⟩ := h
      have hperm := sortLeaves_perm row
      have hsorted : sortLeaves row ≠ [] := fun hnil => hrow (List.nil_perm.1 (hnil ▸ hperm))
      exact hnodes.text_ne_nil (fun leaf hleaf => hlabels leaf (hperm.mem_iff.1 hleaf))
        (splice_ne_nil hsorted fractions)

/-! ## §3  Behind the marks of a row -/

/-- A base starts with its own character, or with a bracket. -/
theorem LaysNodes.exists_cons_base {base next : Node κ} {b : Layout κ}
    (hlabels : ∀ leaf ∈ leaves, ∃ c, leaf.text = [c]) (h : p.LaysNodes inner levels leaves [base] b)
    (hbase : b.text = baseText base) (hstarts : p.startsScript base (next :: nodes) = true) :
    ∃ c more, b.text = c :: more ∧ c ∉ Candidate.operators ∧ c ≠ ':' := by
  rw [hbase]
  cases base with
  | plain place leaf =>
      cases h with
      | symbol hplace _ _ =>
          obtain ⟨c, hc⟩ := hlabels leaf (List.mem_of_getElem? hplace)
          have hcarry : Label.canCarryScript leaf.text = true := by
            have hexponent := (Bool.and_eq_true_iff.1 hstarts).1
            unfold isExponent at hexponent
            exact (Bool.and_eq_true_iff.1 (Bool.and_eq_true_iff.1 hexponent).1).1
          rw [hc] at hcarry
          exact ⟨c, [], hc, Label.not_mem_operators_of_canCarryScript hcarry⟩
  | fraction f => exact ⟨'(', f.text ++ [')'], rfl, by decide, by decide⟩
  | exponent x => cases h

/-- Behind a mark no operator follows but a colon in front of a numerator. -/
theorem LaysNodes.followsMark (hlabels : ∀ leaf ∈ leaves, ∃ c, leaf.text = [c])
    (hinner : ∀ row l, inner row l → row ⊆ leaves → row ≠ [] → l.text ≠ [])
    (h : p.LaysNodes inner levels leaves nodes l) (hmark : l.mark ≠ []) : l.FollowsMark := by
  cases h with
  | nil => exact absurd rfl hmark
  | @symbol place leaf nodes rest hplace _ _ =>
      obtain ⟨c, hc⟩ := hlabels leaf (List.mem_of_getElem? hplace)
      have hoperator : ¬ Label.isOperator [c] = true := by
        intro hop
        rw [Layout.mark, hc, if_pos hop] at hmark
        exact hmark rfl
      rw [Label.isOperator_single_iff, not_or] at hoperator
      exact ⟨c, rest.text, by rw [Layout.text, hc]; rfl, hoperator.1, fun h => absurd h hoperator.2⟩
  | @fraction f candidate place num den nodes rest bracketed hat hquot _ _ =>
      -- the one case in which the layout does not look at what follows
      obtain ⟨c, more, hquotient, hc⟩ :
          ∃ c more, Layout.quotientText num.text den.text = c :: more ∧ c ∉ Candidate.operators :=
        Layout.exists_cons_quotientText
          (hinner _ _ hquot.numerator hat.sides_sublist.1.subset hat.numerator_ne_nil)
      cases bracketed
      · exact ⟨c, more ++ rest.text, congrArg (· ++ rest.text) hquotient, hc, fun _ => rfl⟩
      · exact ⟨'(', _, rfl, by decide, fun _ => rfl⟩
  | @power base next nodes b script rest length hfront hbase hstarts _ _ _ =>
      obtain ⟨c, more, hb, hc, hcolon⟩ := hfront.exists_cons_base hlabels hbase hstarts
      refine ⟨c, _, by rw [Layout.text, hb]; rfl, hc, fun h => absurd h hcolon⟩

/-- What the sides and scripts of a row, and then the row itself, satisfy. -/
def MarksFollowed (row : List (Leaf κ)) (l : Layout κ) : Prop :=
  (row ≠ [] → l.text ≠ []) ∧ ∀ rest ∈ l.behindMarks, rest.FollowsMark

theorem LaysNodes.forall_behindMarks (hlabels : ∀ leaf ∈ leaves, ∃ c, leaf.text = [c])
    (hinner : ∀ row l, inner row l → row ⊆ leaves → MarksFollowed row l)
    (h : p.LaysNodes inner levels leaves nodes l) : ∀ rest ∈ l.behindMarks, rest.FollowsMark := by
  induction h with
  | nil => exact fun rest hrest => absurd hrest List.not_mem_nil
  | symbol _ _ _ ih => exact ih
  | fraction _ hat hquot _ _ ih =>
      have hnum := hinner _ _ hquot.numerator hat.sides_sublist.1.subset
      have hden := hinner _ _ hquot.denominator hat.sides_sublist.2.subset
      simp only [Layout.behindMarks, List.forall_mem_append]
      exact ⟨⟨hnum.2, hden.2⟩, ih⟩
  | @power base next nodes b script rest length _ _ _ _ hraised hbehind ihFront ihBehind =>
      have hsub : scriptLeaves leaves next (nodes.take length) ⊆ leaves :=
        (scriptLeaves_sublist ..).subset
      have hmark : ∀ l ∈ (if rest.mark = [] then [] else [rest]), Layout.FollowsMark l := by
        intro l hl
        split at hl
        · exact absurd hl List.not_mem_nil
        case isFalse hmark =>
          obtain rfl := List.mem_singleton.1 hl
          exact hbehind.followsMark hlabels (fun row l hl hsub => (hinner row l hl hsub).1) hmark
      simp only [Layout.behindMarks, List.forall_mem_append]
      exact ⟨⟨⟨ihFront, (hinner _ _ hraised hsub).2⟩, hmark⟩, ihBehind⟩

theorem LaysRow.marksFollowed (hlabels : ∀ leaf ∈ row, ∃ c, leaf.text = [c])
    (h : p.LaysRow levels row l) :
    MarksFollowed row l := by
  induction levels generalizing row l with
  | zero => exact h.elim
  | succ levels ih =>
      have hnonempty : ∀ leaf ∈ row, leaf.text ≠ [] := by
        intro leaf hleaf
        obtain ⟨c, hc⟩ := hlabels leaf hleaf
        rw [hc]
        exact List.cons_ne_nil c []
      refine ⟨h.text_ne_nil hnonempty, ?_⟩
      obtain ⟨fractions, _, hnodes⟩ := h
      have hsorted : ∀ leaf ∈ sortLeaves row, ∃ c, leaf.text = [c] := fun leaf hleaf =>
        hlabels leaf ((sortLeaves_perm row).mem_iff.1 hleaf)
      exact hnodes.forall_behindMarks hsorted fun row l hl hsub =>
        ih (fun leaf hleaf => hsorted leaf (hsub hleaf)) hl

end Page

/-! ## §4  Whole pages -/

variable [Coordinate κ] {p : Page κ} {detections : List (Detection κ)} {text : List Char}

/-- **Products.** The points of a text are those of labels and one for each product that a power is
in front of. Right behind such a point there is always a character, none of the operators that put a
side in brackets, and a colon only in front of a numerator; it starts an operand unless it is that
colon, a decimal separator, a closing bracket or a sign of no class. -/
theorem exists_cons_behindMarks (hlabels : ∀ d ∈ detections, ∃ c, d.label.toList = [c])
    (h : assemble p detections = .ok text) :
    ∃ l, p.LaysRow (p.geometry.maxDepth + 1) (detections.map (.ofDetection p.geometry)) l ∧
      l.text = text ∧ text.count '.' = (Layout.labels l.symbols).count '.' + l.behindMarks.length ∧
      ∀ rest ∈ l.behindMarks, ('.' :: rest.text) <:+: text ∧ ∃ c more, rest.text = c :: more ∧
        c ∉ Candidate.operators ∧ (c = ':' → rest.isFraction = true) ∧
        (Label.opensOperand c = true ↔ c ≠ ':' ∧ Label.isDecimalSeparator [c] = false ∧
          Label.isClosingBracket [c] = false ∧ Label.isForeign c = false) := by
  obtain ⟨l, hl, rfl⟩ := Page.exists_laysRow p _ _ _ h
  refine ⟨l, hl, rfl, l.count_point_text, fun rest hrest => ?_⟩
  have hleaves : ∀ leaf ∈ detections.map (Leaf.ofDetection p.geometry), ∃ c, leaf.text = [c] :=
    List.forall_mem_map.2 hlabels
  obtain ⟨c, more, htext, hc, hcolon⟩ := (hl.marksFollowed hleaves).2 rest hrest
  exact ⟨Layout.infix_of_mem_behindMarks hrest, c, more, htext, hc, hcolon,
    Label.opensOperand_iff hc⟩

/-- A power times a letter. -/
def powerTimesLetter : List (Detection Float) :=
  [symbolAt "x" 0.2 0.5 0.1 0.1, symbolAt "2" 0.29 0.48 0.04 0.06, symbolAt "y" 0.45 0.5 0.1 0.1]

theorem powerTimesLetter_behindMarks :
    (∀ d ∈ powerTimesLetter, ∃ c, d.label.toList = [c]) ∧
      assemble standardPage powerTimesLetter = .ok "x^2.y".toList ∧
      ∃ l, standardPage.LaysRow 65 (powerTimesLetter.map (.ofDetection .standard)) l ∧
        l.text = "x^2.y".toList ∧
        1 = (Layout.labels l.symbols).count '.' + l.behindMarks.length ∧
        ∀ rest ∈ l.behindMarks, ('.' :: rest.text) <:+: "x^2.y".toList ∧
          ∃ c more, rest.text = c :: more ∧
          c ∉ Candidate.operators ∧ (c = ':' → rest.isFraction = true) ∧
          (Label.opensOperand c = true ↔ c ≠ ':' ∧ Label.isDecimalSeparator [c] = false ∧
            Label.isClosingBracket [c] = false ∧ Label.isForeign c = false) := by
  have hlabels : ∀ d ∈ powerTimesLetter, ∃ c, d.label.toList = [c] := by
    simp [powerTimesLetter, symbolAt]
  have h : assemble standardPage powerTimesLetter = .ok "x^2.y".toList := by
    rw [assemble_of_sorted (by decide +kernel)]
    decide +kernel
  exact ⟨hlabels, h, exists_cons_behindMarks hlabels h⟩

/-- A power in brackets. -/
def bracketedPower : List (Detection Float) :=
  [symbolAt "(" 0.1 0.5 0.04 0.2, symbolAt "x" 0.2 0.5 0.1 0.1, symbolAt "2" 0.29 0.48 0.04 0.06,
    symbolAt ")" 0.4 0.5 0.04 0.2]

/-- The bracket that closes around a power is no operator: it gets the point of a product in
front. -/
theorem closingBracket_behind_mark :
    assemble standardPage bracketedPower = .ok "(x^2.)".toList ∧
      (∀ d ∈ bracketedPower, '.' ∉ d.label.toList) ∧ Label.opensOperand ')' = false := by
  refine ⟨?_, by simp [bracketedPower, symbolAt], by decide⟩
  rw [assemble_of_sorted (by decide +kernel)]
  decide +kernel

end InkAlgebra

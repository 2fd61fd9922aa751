import Mathlib
import InkAlgebra.Proofs.Layout.Grouping
import InkAlgebra.Proofs.Layout.Sorted
import InkAlgebra.Proofs.Number.Rounding

/-!
# Pages moved and scaled

What a page says does not depend on where it lies and in what unit of length its boxes are measured,
as long as both directions are scaled alike. Every position that is asked for compares two
coordinates of one direction, two lengths, a rise with a run, or a ratio of areas with a ratio, and
everything that is computed on the way, unions of boxes, trimmed boxes and boxes of composites,
moves along. So each step of the assembly, on moved symbols, does what it does on the symbols as
they are, and its result is moved. Arithmetic is exact here; rounding would show the place and the
unit.

§1 is coordinates, §2 boxes, §3 leaves and nodes, §4 fractions, §5 scripts, §6 rows and pages.
-/

namespace InkAlgebra

/-! ## §1  Coordinates -/

namespace Exact

/-- Where the tangents of angles are taken from: a field need not hold them. -/
class TangentTable (K : Type) where
  tangent : K → K

scoped instance {K : Type} [Field K] [LinearOrder K] [TangentTable K] : Coordinate K :=
  coordinate TangentTable.tangent

end Exact

open Exact

/-- A change of the place of a page and of its unit of length. -/
structure Similarity (K : Type) [Zero K] [LT K] where
  scale : K
  shiftX : K
  shiftY : K
  scale_pos : 0 < scale

namespace Similarity

variable {K : Type} [Field K] [LinearOrder K] (σ : Similarity K)

def x (a : K) : K := σ.scale * a + σ.shiftX

def y (a : K) : K := σ.scale * a + σ.shiftY

theorem x_sub_x (a b : K) : σ.x a - σ.x b = σ.scale * (a - b) := by
  unfold x
  ring

theorem y_sub_y (a b : K) : σ.y a - σ.y b = σ.scale * (a - b) := by
  unfold y
  ring

theorem x_add (a b : K) : σ.x a + σ.scale * b = σ.x (a + b) := by
  unfold x
  ring

theorem y_add (a b : K) : σ.y a + σ.scale * b = σ.y (a + b) := by
  unfold y
  ring

theorem half_scale_mul (a : K) : Scalar.half (σ.scale * a) = σ.scale * Scalar.half a := by
  rw [half_eq, half_eq, mul_div_assoc]

theorem strictMono_x [IsStrictOrderedRing K] : StrictMono σ.x := fun _ _ h =>
  add_lt_add_left (mul_lt_mul_of_pos_left h σ.scale_pos) σ.shiftX

theorem strictMono_y [IsStrictOrderedRing K] : StrictMono σ.y := fun _ _ h =>
  add_lt_add_left (mul_lt_mul_of_pos_left h σ.scale_pos) σ.shiftY

/-! ## §2  Boxes -/

def box (b : Box K) : Box K :=
  ⟨σ.x b.centerX, σ.y b.centerY, σ.scale * b.width, σ.scale * b.height⟩

theorem left_box (b : Box K) : (σ.box b).left = σ.x b.left := by
  show σ.scale * b.centerX + σ.shiftX - Scalar.half (σ.scale * b.width) =
    σ.scale * (b.centerX - Scalar.half b.width) + σ.shiftX
  rw [half_scale_mul]
  ring

theorem right_box (b : Box K) : (σ.box b).right = σ.x b.right := by
  show σ.x b.centerX + Scalar.half (σ.scale * b.width) = σ.x (b.centerX + Scalar.half b.width)
  rw [half_scale_mul, x_add]

theorem top_box (b : Box K) : (σ.box b).top = σ.y b.top := by
  show σ.scale * b.centerY + σ.shiftY - Scalar.half (σ.scale * b.height) =
    σ.scale * (b.centerY - Scalar.half b.height) + σ.shiftY
  rw [half_scale_mul]
  ring

theorem bottom_box (b : Box K) : (σ.box b).bottom = σ.y b.bottom := by
  show σ.y b.centerY + Scalar.half (σ.scale * b.height) = σ.y (b.centerY + Scalar.half b.height)
  rw [half_scale_mul, y_add]

theorem area_box (b : Box K) : (σ.box b).area = σ.scale * σ.scale * b.area :=
  mul_mul_mul_comm σ.scale b.width σ.scale b.height

/-- A line across a box, at a share of its height. -/
theorem top_add_box (b : Box K) (share : K) :
    (σ.box b).top + (σ.box b).height * share = σ.y (b.top + b.height * share) := by
  rw [top_box, ← y_add, ← mul_assoc]
  rfl

theorem ofEdges_moved (left top right bottom : K) :
    Box.ofEdges (σ.x left) (σ.y top) (σ.x right) (σ.y bottom) =
        σ.box (Box.ofEdges left top right bottom) := by
  simp only [Box.ofEdges, box, x_sub_x, y_sub_y, half_scale_mul, x_add, y_add]

theorem trimmedFromTop_box (b : Box K) (share : K) :
    (σ.box b).trimmedFromTop share = σ.box (b.trimmedFromTop share) := by
  rw [Box.trimmedFromTop, left_box, top_add_box, top_box, right_box, ofEdges_moved]
  rfl

section

variable [IsStrictOrderedRing K] [TangentTable K]

theorem union_box (a b : Box K) : (σ.box a).union (σ.box b) = σ.box (a.union b) := by
  have hleft : min (σ.x a.left) (σ.x b.left) = σ.x (min a.left b.left) :=
    σ.strictMono_x.monotone.map_min.symm
  have htop : min (σ.y a.top) (σ.y b.top) = σ.y (min a.top b.top) :=
    σ.strictMono_y.monotone.map_min.symm
  have hright : max (σ.x a.right) (σ.x b.right) = σ.x (max a.right b.right) :=
    σ.strictMono_x.monotone.map_max.symm
  have hbottom : max (σ.y a.bottom) (σ.y b.bottom) = σ.y (max a.bottom b.bottom) :=
    σ.strictMono_y.monotone.map_max.symm
  calc (σ.box a).union (σ.box b)
      = Box.ofEdges (min (σ.x a.left) (σ.x b.left)) (min (σ.y a.top) (σ.y b.top))
          (max (σ.x a.right) (σ.x b.right)) (max (σ.y a.bottom) (σ.y b.bottom)) := by
        rw [← left_box, ← left_box, ← top_box, ← top_box, ← right_box, ← right_box,
          ← bottom_box, ← bottom_box]
        rfl
    _ = σ.box (a.union b) := by
        rw [hleft, htop, hright, hbottom, ofEdges_moved]
        rfl

variable (g : Geometry K)

theorem isSuperscript_box (base script : Box K) :
    g.isSuperscript (σ.box base) (σ.box script) = g.isSuperscript base script := by
  unfold Geometry.isSuperscript
  rw [bottom_box, top_add_box]
  exact decide_eq_decide.2 σ.strictMono_y.le_iff_le

theorem isLowered_box (previous b : Box K) :
    g.isLowered (σ.box previous) (σ.box b) = g.isLowered previous b := by
  unfold Geometry.isLowered
  rw [top_box σ b, top_add_box]
  exact decide_eq_decide.2 σ.strictMono_y.le_iff_le

theorem isInline_box (base operator : Box K) :
    g.isInline (σ.box base) (σ.box operator) = g.isInline base operator := by
  unfold Geometry.isInline
  rw [top_add_box]
  exact decide_eq_decide.2 σ.strictMono_y.le_iff_le

/-- A slope has no unit. -/
theorem slopeAtLeast_scale_mul (rise run bound : K) :
    Coordinate.slopeAtLeast (σ.scale * rise) (σ.scale * run) bound =
        Coordinate.slopeAtLeast rise run bound := by
  have hscale : σ.scale ≠ 0 := σ.scale_pos.ne'
  show (if σ.scale * run = 0 then decide (0 < σ.scale * rise)
      else decide (bound ≤ σ.scale * rise / (σ.scale * run))) =
    if run = 0 then decide (0 < rise) else decide (bound ≤ rise / run)
  by_cases hrun : run = 0
  · rw [if_pos hrun, if_pos (by rw [hrun, mul_zero])]
    exact decide_eq_decide.2 (mul_pos_iff_of_pos_left σ.scale_pos)
  · rw [if_neg hrun, if_neg (mul_ne_zero hscale hrun), mul_div_mul_left rise run hscale]

theorem risesSteeply_box (base script : Box K) :
    g.risesSteeply (σ.box base) (σ.box script) = g.risesSteeply base script := by
  unfold Geometry.risesSteeply
  rw [← slopeAtLeast_scale_mul σ (base.centerY - script.centerY), ← y_sub_y, ← x_sub_x]
  rfl

end

/-! ## §3  Leaves and nodes -/

def detection (d : Detection K) : Detection K := { d with box := σ.box d.box }

def leaf (l : Leaf K) : Leaf K := { l with box := σ.box l.box, ink := σ.box l.ink }

def composite (c : Composite K) : Composite K := { c with box := σ.box c.box }

def node : Node K → Node K
  | .plain i l => .plain i (σ.leaf l)
  | .fraction c => .fraction (σ.composite c)
  | .exponent c => .exponent (σ.composite c)

theorem ofDetection_detection (g : Geometry K) (d : Detection K) :
    Leaf.ofDetection g (σ.detection d) = σ.leaf (.ofDetection g d) := by
  unfold Leaf.ofDetection
  dsimp only [detection, leaf]
  split
  · rw [trimmedFromTop_box]
  · rfl

@[simp] theorem text_leaf (l : Leaf K) : (σ.leaf l).text = l.text := rfl

@[simp] theorem text_node (n : Node K) : (σ.node n).text = n.text := by cases n <;> rfl

@[simp] theorem box_node (n : Node K) : (σ.node n).box = σ.box n.box := by cases n <;> rfl

@[simp] theorem ink_node (n : Node K) : (σ.node n).ink = σ.box n.ink := by cases n <;> rfl

@[simp] theorem span_node (n : Node K) : (σ.node n).span = n.span := by cases n <;> rfl

@[simp] theorem isOperator_node (n : Node K) : (σ.node n).isOperator = n.isOperator := by
  unfold Node.isOperator
  rw [text_node]

section

variable [TangentTable K] (p : Page K)

theorem nominalArea?_node (n : Node K) : p.nominalArea? (σ.node n) = p.nominalArea? n := by
  unfold Page.nominalArea?
  rw [text_node]

variable [IsStrictOrderedRing K]

/-- Two drawn areas grow alike, and so does the scale that a glyph is drawn at. -/
theorem isSmallScript_node (base script : Node K) :
    p.isSmallScript (σ.node base) (σ.node script) = p.isSmallScript base script := by
  have hsquare : 0 < σ.scale * σ.scale := mul_pos σ.scale_pos σ.scale_pos
  have hline : (σ.box base.box).bottom - (σ.box base.box).height * p.geometry.smallScriptRise =
      σ.y (base.box.bottom - base.box.height * p.geometry.smallScriptRise) := by
    rw [bottom_box]
    unfold y box
    ring
  unfold Page.isSmallScript
  rw [nominalArea?_node, nominalArea?_node, box_node, box_node, hline,
    bottom_box, ink_node, ink_node]
  by_cases hlow : base.box.bottom - base.box.height * p.geometry.smallScriptRise ≤ script.box.bottom
  · rw [if_pos hlow, if_pos (σ.strictMono_y.le_iff_le.2 hlow)]
  · rw [if_neg hlow, if_neg (mt σ.strictMono_y.le_iff_le.1 hlow)]
    cases p.nominalArea? base with
    | none => rfl
    | some baseArea =>
        cases p.nominalArea? script with
        | none => rfl
        | some scriptArea =>
            dsimp only
            rw [area_box, area_box, mul_div_assoc, mul_div_assoc, mul_div_mul_left _ _ hsquare.ne']
            exact congrArg (· && _) (decide_eq_decide.2 (mul_pos_iff_of_pos_left hsquare))

theorem isRaised_node (base n : Node K) :
    p.isRaised (σ.node base) (σ.node n) = p.isRaised base n := by
  unfold Page.isRaised
  rw [isSmallScript_node, box_node, box_node, isSuperscript_box]

theorem isExponent_node (base script : Node K) :
    p.isExponent (σ.node base) (σ.node script) = p.isExponent base script := by
  unfold Page.isExponent
  rw [isSmallScript_node, box_node, box_node, isSuperscript_box,
    risesSteeply_box, text_node, text_node]

end

/-! ## §4  Fractions -/

theorem slice_map_leaf (span : Span) (leaves : List (Leaf K)) :
    span.slice (leaves.map σ.leaf) = (span.slice leaves).map σ.leaf := by
  rw [Span.slice, Span.slice, List.map_take, List.map_drop]

def candidate (c : Candidate K) : Candidate K :=
  { c with
    bar := σ.leaf c.bar
    numerator := c.numerator.map σ.leaf
    denominator := c.denominator.map σ.leaf }

theorem keepOutermost_map_candidate (kept : List (Candidate K)) (c : Candidate K) :
    Candidate.keepOutermost (kept.map σ.candidate) (σ.candidate c) =
      (Candidate.keepOutermost kept c).map σ.candidate := by
  have hany : ((kept.map σ.candidate).any fun d => (σ.candidate c).span.isInside d.span) =
      kept.any fun d => c.span.isInside d.span := List.any_map
  unfold Candidate.keepOutermost
  rw [hany, List.filter_map]
  split
  · rfl
  · rw [List.map_append]
    rfl

theorem outermost_map_candidate (candidates : List (Candidate K)) :
    Candidate.outermost (candidates.map σ.candidate) =
        (Candidate.outermost candidates).map σ.candidate := by
  suffices ∀ kept : List (Candidate K),
      (candidates.map σ.candidate).foldl Candidate.keepOutermost (kept.map σ.candidate) =
        (candidates.foldl Candidate.keepOutermost kept).map σ.candidate from this []
  induction candidates with
  | nil =>
      intro kept
      rfl
  | cons c rest ih =>
      intro kept
      rw [List.map_cons, List.foldl_cons, List.foldl_cons, keepOutermost_map_candidate, ih]

theorem splice_map_leaf (place : ℕ) (leaves : List (Leaf K)) (fractions : List (Composite K)) :
    splice place (leaves.map σ.leaf) (fractions.map σ.composite) =
        (splice place leaves fractions).map σ.node := by
  have hdrop : ∀ (i : ℕ) (row : List (Composite K)),
      (row.map σ.composite).dropWhile (fun f => f.span.start < i) =
        (row.dropWhile fun f => f.span.start < i).map σ.composite :=
          fun i row => List.dropWhile_map ..
  fun_induction splice place leaves fractions with
  | case1 =>
      rw [List.map_nil, splice]
      rfl
  | case2 leaf rest fractions f later hnext ih =>
      rw [List.map_cons, splice, hdrop, hnext, List.map_cons]
      dsimp only
      rw [if_pos (show (σ.composite f).span.start = f.span.start from rfl), ← List.map_drop]
      exact congrArg (_ :: ·) ih
  | case3 place leaf rest fractions f later hnext hlater ih =>
      rw [List.map_cons, splice, hdrop, hnext, List.map_cons]
      dsimp only
      rw [if_neg (show ¬ (σ.composite f).span.start = place from hlater)]
      exact congrArg (_ :: ·) ih
  | case4 place leaf rest fractions hnext ih =>
      rw [List.map_cons, splice, hdrop, hnext, List.map_nil]
      exact congrArg (_ :: ·) ih

/-- Whether a way of assembly gives a moved row the text of the row. -/
def Keeps (inner : List (Leaf K) → Except LimitPassed (List Char)) : Prop :=
  ∀ row : List (Leaf K), inner (row.map σ.leaf) = inner row

section

variable [IsStrictOrderedRing K] [TangentTable K]
  {inner : List (Leaf K) → Except LimitPassed (List Char)}

/-- The sides of a moved bar are the moved sides. -/
theorem sideOf_map_leaf (bar : Leaf K) (place : ℕ) (onSide onSide' : Leaf K → Bool)
    (hside : ∀ l, onSide' (σ.leaf l) = onSide l) (leaves : List (Leaf K)) :
    Candidate.sideOf (σ.leaf bar) place onSide' (leaves.map σ.leaf) =
      (Candidate.sideOf bar place onSide leaves).map (Prod.map σ.leaf id) := by
  unfold Candidate.sideOf
  rw [List.zipIdx_map, List.filter_map]
  refine congrArg (List.map _) (List.filter_congr ?_)
  rintro ⟨l, i⟩ _
  have hleft : (σ.leaf l).box.centerX < (σ.leaf bar).box.left ↔ l.box.centerX < bar.box.left := by
    show σ.x l.box.centerX < (σ.box bar.box).left ↔ _
    rw [left_box]
    exact σ.strictMono_x.lt_iff_lt
  have hright : (σ.leaf bar).box.right < (σ.leaf l).box.centerX ↔
      bar.box.right < l.box.centerX := by
    show (σ.box bar.box).right < σ.x l.box.centerX ↔ _
    rw [right_box]
    exact σ.strictMono_x.lt_iff_lt
  simp only [Function.comp_apply, Prod.map_apply, id_eq, hside, decide_eq_decide.2 hleft,
    decide_eq_decide.2 hright]

theorem ofBar?_map_leaf (leaves : List (Leaf K)) (bar : Leaf K) (place : ℕ) :
    Candidate.ofBar? (leaves.map σ.leaf) (σ.leaf bar) place =
      (Candidate.ofBar? leaves bar place).map σ.candidate := by
  have habove := σ.sideOf_map_leaf bar place (fun l => l.box.centerY < bar.box.centerY)
    (fun l => l.box.centerY < (σ.leaf bar).box.centerY)
    (fun l => decide_eq_decide.2 σ.strictMono_y.lt_iff_lt) leaves
  have hbelow := σ.sideOf_map_leaf bar place (fun l => bar.box.centerY < l.box.centerY)
    (fun l => (σ.leaf bar).box.centerY < l.box.centerY)
    (fun l => decide_eq_decide.2 σ.strictMono_y.lt_iff_lt) leaves
  unfold Candidate.ofBar?
  dsimp only
  rw [habove, hbelow, List.isEmpty_map, List.isEmpty_map]
  split
  · rfl
  · simp [candidate, Function.comp_def]

/-- Moved symbols have the moved candidates. -/
theorem all_map_leaf (leaves : List (Leaf K)) :
    Candidate.all (leaves.map σ.leaf) = (Candidate.all leaves).map σ.candidate := by
  unfold Candidate.all
  rw [List.zipIdx_map, List.filterMap_map, List.map_filterMap]
  refine List.filterMap_congr ?_
  rintro ⟨l, i⟩ _
  show (if l.text = ['-'] then Candidate.ofBar? (leaves.map σ.leaf) (σ.leaf l) i else none) = _
  rw [ofBar?_map_leaf]
  dsimp only
  split <;> rfl

theorem foldl_union_box {β : Type} (boxOf boxOf' : β → Box K) (f : β → β)
    (hbox : ∀ b, boxOf' (f b) = σ.box (boxOf b)) (row : List β) (first : Box K) :
    (row.map f).foldl (fun box b => box.union (boxOf' b)) (σ.box first) =
      σ.box (row.foldl (fun box b => box.union (boxOf b)) first) := by
  induction row generalizing first with
  | nil => rfl
  | cons b rest ih => rw [List.map_cons, List.foldl_cons, List.foldl_cons, hbox, union_box, ih]

theorem inkBox_candidate (leaves : List (Leaf K)) (c : Candidate K) :
    (σ.candidate c).inkBox (leaves.map σ.leaf) = σ.box (c.inkBox leaves) := by
  unfold Candidate.inkBox
  rw [show (σ.candidate c).span = c.span from rfl, slice_map_leaf]
  cases c.span.slice leaves with
  | nil => rfl
  | cons first rest =>
      exact σ.foldl_union_box Leaf.ink Leaf.ink σ.leaf (fun _ => rfl) rest first.ink

theorem assemble_candidate (hinner : σ.Keeps inner) (leaves : List (Leaf K)) (c : Candidate K) :
    (σ.candidate c).assemble inner (leaves.map σ.leaf) =
        (c.assemble inner leaves).map σ.composite := by
  have hbox := σ.inkBox_candidate leaves c
  unfold Candidate.assemble
  rw [hbox]
  refine bind_eq_map_bind (f := id)
    ((hinner c.numerator).trans (congrFun Except.map_id _).symm) fun num => ?_
  refine bind_eq_map_bind (f := id)
    ((hinner c.denominator).trans (congrFun Except.map_id _).symm) fun den => ?_
  rfl

theorem findFractions_map_leaf (hinner : σ.Keeps inner) (leaves : List (Leaf K)) :
    findFractions inner (leaves.map σ.leaf) =
        (findFractions inner leaves).map (List.map σ.composite) := by
  unfold findFractions
  rw [all_map_leaf, outermost_map_candidate]
  have hassemble := mapM_eq_map_mapM (σ.assemble_candidate hinner leaves)
    (Candidate.outermost (Candidate.all leaves))
  refine bind_eq_map_bind ((List.mapM_map ..).trans hassemble) fun fractions => ?_
  refine congrArg Except.ok (List.map_mergeSort ?_).symm
  intro a _ b _
  rfl

end

/-! ## §5  Scripts -/

theorem standAlone_node (leaves : List (Leaf K)) (n : Node K) (next : Option (Node K)) :
    Page.standAlone (leaves.map σ.leaf) (σ.node n) (next.map σ.node) =
        σ.node (Page.standAlone leaves n next) := by
  cases n with
  | plain i l => rfl
  | exponent c => rfl
  | fraction f =>
      rw [show σ.node (.fraction f) = .fraction (σ.composite f) from rfl]
      unfold Page.standAlone
      dsimp only [composite]
      rw [apply_ite σ.node, List.getElem?_map]
      cases leaves[f.span.start - 1]? <;> cases next <;>
        simp only [Option.map_none, Option.map_some, text_leaf, text_node] <;>
        rfl

theorem markBefore_map_node (nodes : List (Node K)) :
    Page.markBefore (nodes.map σ.node) = Page.markBefore nodes := by
  cases nodes with
  | nil => rfl
  | cons n rest => cases n <;> rfl

theorem joinTexts_map_node (nodes : List (Node K)) :
    Page.joinTexts (nodes.map σ.node) = Page.joinTexts nodes := by
  induction nodes with
  | nil => rfl
  | cons n rest ih =>
      cases n with
      | plain i l =>
          rw [List.map_cons, node, Page.joinTexts_plain, Page.joinTexts_plain, ih, text_leaf]
      | fraction c =>
          rw [List.map_cons, node, Page.joinTexts_fraction, Page.joinTexts_fraction, ih]
          rfl
      | exponent c =>
          rw [List.map_cons, node, Page.joinTexts_exponent, Page.joinTexts_exponent,
            markBefore_map_node, ih]
          rfl

section

variable [IsStrictOrderedRing K] [TangentTable K] (p : Page K)
  {inner : List (Leaf K) → Except LimitPassed (List Char)}

theorem isNotRaised_node (base : Node K) (after : Option (Node K)) :
    ((after.map σ.node).any fun a => !p.isRaised (σ.node base) a) =
        after.any fun a => !p.isRaised base a := by
  cases after with
  | none => rfl
  | some a => exact congrArg (!·) (σ.isRaised_node p base a)

theorem operatorStartsTerm_node (base next : Node K) (after : Option (Node K)) :
    p.operatorStartsTerm (σ.node base) (σ.node next) (after.map σ.node) =
        p.operatorStartsTerm base next after := by
  unfold Page.operatorStartsTerm
  rw [isNotRaised_node, isOperator_node]

theorem operatorEnds_node (base operator : Node K) (after : Option (Node K)) :
    p.operatorEnds (σ.node base) (σ.node operator) (after.map σ.node) =
        p.operatorEnds base operator after := by
  unfold Page.operatorEnds
  rw [isNotRaised_node, isOperator_node, box_node, box_node, isInline_box, isSuperscript_box]

theorem separatorContinues_node (anchor separator : Node K) (after : Option (Node K)) :
    p.separatorContinues (σ.node anchor) (σ.node separator) (after.map σ.node) =
      p.separatorContinues anchor separator after := by
  unfold Page.separatorContinues
  rw [text_node, box_node]
  cases after with
  | none => rfl
  | some a =>
      dsimp only [Option.map_some, Option.any_some]
      rw [box_node, isLowered_box]

theorem scriptEndsBefore_node (base anchor n : Node K) (after : Option (Node K)) :
    p.scriptEndsBefore (σ.node base) (σ.node anchor) (σ.node n) (after.map σ.node) =
      p.scriptEndsBefore base anchor n after := by
  unfold Page.scriptEndsBefore
  rw [operatorEnds_node, separatorContinues_node, isRaised_node, box_node, box_node,
    isLowered_box, text_node]

/-- The script of a moved base is as long as that of the base. -/
theorem scriptLength_map_node (levels : ℕ) (base anchor : Node K) (behind : List (Node K)) :
    p.scriptLength levels (σ.node base) (σ.node anchor) (behind.map σ.node) =
      p.scriptLength levels base anchor behind := by
  fun_induction Page.scriptLength p levels base anchor behind with
  | case1 => rw [Page.scriptLength]
  | case2 base anchor levels => rw [List.map_nil, Page.scriptLength]
  | case3 base anchor levels n rest hends =>
      rw [List.map_cons, Page.scriptLength, List.head?_map, scriptEndsBefore_node, if_pos hends]
  | case4 base anchor levels n rest hgoes hstarts ihNested ihMore =>
      rw [List.map_cons, Page.scriptLength, List.head?_map, scriptEndsBefore_node, if_neg hgoes,
        isExponent_node, if_pos hstarts]
      simp only [ihNested, ← List.map_drop, ihMore]
  | case5 base anchor levels n rest hgoes halone ih =>
      rw [List.map_cons, Page.scriptLength, List.head?_map, scriptEndsBefore_node, if_neg hgoes,
        isExponent_node, if_neg halone, ih]

theorem assembleExponent_map_node (hinner : σ.Keeps inner) (leaves : List (Leaf K))
    (base first : Node K) (more : List (Node K)) :
    Page.assembleExponent inner (leaves.map σ.leaf) (σ.node base) (σ.node first) (more.map σ.node) =
      (Page.assembleExponent inner leaves base first more).map σ.composite := by
  have hlast : (more.map σ.node).getLast?.getD (σ.node first) =
      σ.node (more.getLast?.getD first) := by
    rw [List.getLast?_map]
    cases more.getLast? <;> rfl
  have hbox : ((first :: more).map σ.node).foldl (fun box n => box.union n.box) (σ.node base).box =
      σ.box ((first :: more).foldl (fun box n => box.union n.box) base.box) := by
    rw [box_node]
    exact σ.foldl_union_box Node.box Node.box σ.node σ.box_node (first :: more) base.box
  have htext : Page.baseText (σ.node base) = Page.baseText base := by cases base <;> rfl
  unfold Page.assembleExponent
  dsimp only
  rw [hlast, span_node, span_node, slice_map_leaf, hinner]
  cases inner ((first.span.join (more.getLast?.getD first).span).slice leaves) with
  | error e => rfl
  | ok script =>
      rw [← List.map_cons, hbox, htext, span_node]
      rfl

theorem attachScripts_map_node (hinner : σ.Keeps inner) (levels : ℕ) (leaves : List (Leaf K))
    (nodes : List (Node K)) :
    p.attachScripts inner levels (leaves.map σ.leaf) (nodes.map σ.node) =
      (p.attachScripts inner levels leaves nodes).map (List.map σ.node) := by
  fun_induction Page.attachScripts p inner levels leaves nodes with
  | case1 =>
      rw [List.map_nil, Page.attachScripts]
      rfl
  | case2 n =>
      rw [List.map_cons, List.map_nil, Page.attachScripts]
      exact congrArg (fun m => Except.ok [m]) (σ.standAlone_node leaves n none)
  | case3 n next rest hstarts ih =>
      rw [List.map_cons, List.map_cons, Page.attachScripts, List.head?_map, isExponent_node,
        operatorStartsTerm_node, if_pos hstarts, scriptLength_map_node]
      refine bind_eq_map_bind (f := id) (congrFun Except.map_id _).symm fun length => ?_
      rw [id_eq, ← List.map_take, ← List.map_drop]
      refine bind_eq_map_bind (σ.assembleExponent_map_node hinner leaves n next _) fun exponent =>
        ?_
      exact bind_eq_map_bind (ih length) fun more => rfl
  | case4 n next rest halone ih =>
      have hstands := σ.standAlone_node leaves n (some next)
      rw [List.map_cons, List.map_cons, Page.attachScripts, List.head?_map, isExponent_node,
        operatorStartsTerm_node, if_neg halone]
      refine bind_eq_map_bind ih fun more => ?_
      exact congrArg (fun m => Except.ok (m :: more.map σ.node)) hstands

/-! ## §6  Rows and pages -/

theorem sortLeaves_map_leaf (row : List (Leaf K)) :
    Page.sortLeaves (row.map σ.leaf) = (Page.sortLeaves row).map σ.leaf := by
  refine (List.map_mergeSort ?_).symm
  intro a _ b _
  refine decide_eq_decide.2 ?_
  show a.ink.left ≤ b.ink.left ↔ (σ.box a.ink).left ≤ (σ.box b.ink).left
  rw [left_box, left_box]
  exact σ.strictMono_x.le_iff_le.symm

/-- **Rows.** A moved row has the text of the row. -/
theorem keeps_assembleRow (levels : ℕ) : σ.Keeps (p.assembleRow levels) := by
  induction levels with
  | zero =>
      intro row
      rfl
  | succ levels ih =>
      intro row
      rw [Page.assembleRow, Page.assembleRow, sortLeaves_map_leaf]
      refine Eq.trans ?_ (congrFun Except.map_id _)
      refine bind_eq_map_bind (σ.findFractions_map_leaf ih _) fun fractions => ?_
      rw [splice_map_leaf]
      refine bind_eq_map_bind (σ.attachScripts_map_node p ih _ _ _) fun nodes => ?_
      exact congrArg Except.ok (σ.joinTexts_map_node nodes)

end

end Similarity

/-- **Place and unit.** A page whose boxes are all moved alike, and measured in another unit of
length, is assembled to the same text, or fails alike. -/
theorem assemble_map_detection {K : Type} [Field K] [LinearOrder K] [IsStrictOrderedRing K]
    [TangentTable K] (σ : Similarity K) (p : Page K) (detections : List (Detection K)) :
    assemble p (detections.map σ.detection) = assemble p detections := by
  have hleaves : (detections.map σ.detection).map (Leaf.ofDetection p.geometry) =
      (detections.map (Leaf.ofDetection p.geometry)).map σ.leaf := by
    rw [List.map_map, List.map_map]
    exact List.map_congr_left fun d _ => σ.ofDetection_detection p.geometry d
  rw [assemble, assemble, hleaves]
  exact σ.keeps_assembleRow p _ _

/-- A tangent close to that of the one angle that is asked for. -/
local instance : TangentTable ℚ := ⟨fun _ => 91 / 250⟩

/-- A square over three. -/
def thirdOfSquare : List (Detection ℚ) :=
  [⟨"-", 1, ⟨3 / 10, 1 / 2, 2 / 5, 1 / 100⟩⟩, ⟨"x", 1, ⟨1 / 4, 3 / 10, 1 / 10, 1 / 10⟩⟩,
    ⟨"3", 1, ⟨3 / 10, 7 / 10, 1 / 20, 1 / 10⟩⟩, ⟨"2", 1, ⟨33 / 100, 1 / 4, 1 / 20, 1 / 20⟩⟩]

/-- From shares of a picture to its pixels. -/
def toPixels : Similarity ℚ := ⟨640, -16, 24, by norm_num⟩

/-- A fraction with a script, in shares of a picture and in pixels. -/
theorem thirdOfSquare_map_detection :
    assemble bluntPage thirdOfSquare = .ok "(x^2)/3".toList ∧
      assemble bluntPage (thirdOfSquare.map toPixels.detection) = .ok "(x^2)/3".toList := by
  have hsorted : FromLeft (thirdOfSquare.map (.ofDetection bluntPage.geometry)) := by decide +kernel
  have htext : assemble bluntPage thirdOfSquare = .ok "(x^2)/3".toList := by
    rw [assemble, hsorted.assembleRow_eq]
    decide +kernel
  exact ⟨htext, (assemble_map_detection toPixels bluntPage thirdOfSquare).trans htext⟩

end InkAlgebra

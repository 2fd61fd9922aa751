import Mathlib
import InkAlgebra.Proofs.Layout.Products
import InkAlgebra.Proofs.Number.Laws

/-!
# Rows in order

Every row is sorted by left edges before it is assembled, but only the first sorting can change
anything: the sides of a fraction and the leaves of a script are drawn from a sorted row without
changing their order. So assembly is the same as sorting the whole page once and reading rows as
they come (`assemble_eq_readRow`).

§1 is the order of rows, §2 the rows inside a row, §3 reading without sorting.
-/

namespace InkAlgebra

variable {κ : Type} [Coordinate κ]

/-! ## §1  Sorted rows -/

/-- Whether leaves come from left to right. -/
def FromLeft (row : List (Leaf κ)) : Prop :=
  row.Pairwise fun a b => Coordinate.precedes a.ink.left b.ink.left = true

instance (row : List (Leaf κ)) : Decidable (FromLeft row) :=
  inferInstanceAs (Decidable (row.Pairwise _))

theorem FromLeft.sortLeaves_eq {row : List (Leaf κ)} (h : FromLeft row) :
    Page.sortLeaves row = row :=
  List.mergeSort_of_pairwise h

theorem FromLeft.sublist {run row : List (Leaf κ)} (h : FromLeft row) (hsub : run.Sublist row) :
    FromLeft run :=
  List.Pairwise.sublist hsub h

/-- Sorting sorts. -/
theorem fromLeft_sortLeaves [LawfulPrecedence κ] (row : List (Leaf κ)) :
    FromLeft (Page.sortLeaves row) := by
  apply List.pairwise_mergeSort
  · intro a b c
    exact LawfulPrecedence.precedes_trans
  · intro a b
    exact LawfulPrecedence.precedes_total _ _

/-- Detections from left to right; equal edges keep their order. -/
def leftToRight (detections : List (Detection κ)) : List (Detection κ) :=
  detections.mergeSort fun a b => Coordinate.precedes a.box.left b.box.left

theorem sortLeaves_map_ofDetection (g : Geometry κ) (detections : List (Detection κ)) :
    Page.sortLeaves (detections.map (.ofDetection g)) =
        (leftToRight detections).map (.ofDetection g) := by
  unfold Page.sortLeaves leftToRight
  rw [List.map_mergeSort]
  intro a _ b _
  rfl

/-! ## §2  Rows inside a row -/

/-- Whether two ways of assembly agree on all that is drawn from a row. -/
def AgreeWithin (leaves : List (Leaf κ))
    (inner inner' : List (Leaf κ) → Except LimitPassed (List Char)) : Prop :=
  ∀ row : List (Leaf κ), row.Sublist leaves → inner row = inner' row

variable {inner inner' : List (Leaf κ) → Except LimitPassed (List Char)} {leaves : List (Leaf κ)}

theorem AgreeWithin.findFractions_eq (h : AgreeWithin leaves inner inner') :
    findFractions inner leaves = findFractions inner' leaves := by
  have hassemble : ∀ c ∈ Candidate.outermost (Candidate.all leaves),
      c.assemble inner leaves = c.assemble inner' leaves := by
    intro c hc
    obtain ⟨place, hat⟩ := Candidate.exists_isAt_of_mem_all (Candidate.mem_of_mem_outermost hc)
    obtain ⟨hnum, hden⟩ := hat.sides_sublist
    rw [Candidate.assemble, Candidate.assemble, h _ hnum, h _ hden]
  rw [findFractions, findFractions, mapM_congr hassemble]

theorem AgreeWithin.attachScripts_eq (h : AgreeWithin leaves inner inner') (p : Page κ) (levels : ℕ)
    (nodes : List (Node κ)) :
    p.attachScripts inner levels leaves nodes = p.attachScripts inner' levels leaves nodes := by
  have hexponent : ∀ base next more,
      Page.assembleExponent inner leaves base next more =
          Page.assembleExponent inner' leaves base next more := by
    intro base next more
    exact congrArg (· >>= _) (h _ (Page.scriptLeaves_sublist leaves next more))
  fun_induction Page.attachScripts p inner levels leaves nodes with
  | case1 => rw [Page.attachScripts]
  | case2 n => rw [Page.attachScripts]
  | case3 base next rest hstarts ih =>
      rw [Page.attachScripts, if_pos hstarts]
      simp only [hexponent, ih]
  | case4 n next rest halone ih =>
      rw [Page.attachScripts, if_neg halone, ih]

/-! ## §3  Reading without sorting -/

/-- The text of a row as it comes. -/
def Page.readRow (p : Page κ) : ℕ → List (Leaf κ) → Except LimitPassed (List Char)
  | 0, _ => .error p.tooDeep
  | levels + 1, leaves => do
    let fractions ← findFractions (p.readRow levels) leaves
    let nodes ← p.attachScripts (p.readRow levels) levels leaves (splice 0 leaves fractions)
    return joinTexts nodes

/-- A row in order is assembled as it comes. -/
theorem FromLeft.assembleRow_eq {row : List (Leaf κ)} (h : FromLeft row) (p : Page κ) (levels : ℕ) :
    p.assembleRow levels row = p.readRow levels row := by
  induction levels generalizing row with
  | zero => rfl
  | succ levels ih =>
      have hagree : AgreeWithin row (p.assembleRow levels) (p.readRow levels) :=
        fun run hrun => ih (h.sublist hrun)
      rw [Page.assembleRow, h.sortLeaves_eq, hagree.findFractions_eq]
      simp only [hagree.attachScripts_eq]
      rfl

/-- **Sorted once.** Sorting a page once is enough. -/
theorem assemble_eq_readRow [LawfulPrecedence κ] (p : Page κ) (detections : List (Detection κ)) :
    assemble p detections =
      p.readRow (p.geometry.maxDepth + 1)
          ((leftToRight detections).map (.ofDetection p.geometry)) := by
  rw [← sortLeaves_map_ofDetection, ← (fromLeft_sortLeaves _).assembleRow_eq, assemble,
    Page.assembleRow, Page.assembleRow, (fromLeft_sortLeaves _).sortLeaves_eq]

end InkAlgebra

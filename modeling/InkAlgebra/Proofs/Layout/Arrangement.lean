import Mathlib
import InkAlgebra.Proofs.Layout.Sorted
import InkAlgebra.Solution

/-!
# The order of detection

A recogniser finds the symbols of a page in some order of its own. Nothing depends on it as long as
no two symbols start at the same left edge: then there is one arrangement from left to right, and
the arrangement is all that assembly looks at. Only symbols that start at one edge are kept in the
order in which they were found.
-/

namespace InkAlgebra

variable {κ : Type} [Coordinate κ]

/-- Whether two detections start at the same left edge, as far as sorting can tell. -/
def Detection.SharesEdge (a b : Detection κ) : Prop :=
  Coordinate.precedes a.box.left b.box.left = true ∧
    Coordinate.precedes b.box.left a.box.left = true

/-- Whether no two detections start at the same left edge. -/
def EdgesApart (detections : List (Detection κ)) : Prop :=
  detections.Pairwise fun a b => ¬ a.SharesEdge b

instance (a b : Detection κ) : Decidable (a.SharesEdge b) := inferInstanceAs (Decidable (_ ∧ _))

instance (detections : List (Detection κ)) : Decidable (EdgesApart detections) :=
  inferInstanceAs (Decidable (detections.Pairwise _))

/-- Detections that start at the same left edge are one and the same. -/
theorem EdgesApart.eq_of_sharesEdge {detections : List (Detection κ)} (h : EdgesApart detections)
    {a b : Detection κ} (ha : a ∈ detections) (hb : b ∈ detections) (hshared : a.SharesEdge b) :
    a = b := by
  have hsymm : Std.Symm fun c d : Detection κ => ¬ c.SharesEdge d :=
    ⟨fun _ _ hcd hdc => hcd hdc.symm⟩
  by_contra hne
  exact List.Pairwise.forall h ha hb hne hshared

variable [LawfulPrecedence κ]

theorem pairwise_leftToRight (detections : List (Detection κ)) :
    (leftToRight detections).Pairwise fun a b =>
        Coordinate.precedes a.box.left b.box.left = true := by
  apply List.pairwise_mergeSort
  · intro a b c
    exact LawfulPrecedence.precedes_trans
  · intro a b
    exact LawfulPrecedence.precedes_total _ _

/-- **One arrangement.** Detections with different left edges come from left to right in one way
only. -/
theorem EdgesApart.leftToRight_eq_of_perm {detections found : List (Detection κ)}
    (h : EdgesApart detections) (hperm : found.Perm detections) :
    leftToRight found = leftToRight detections := by
  have hfound : (leftToRight found).Perm detections := (List.mergeSort_perm ..).trans hperm
  have hsame : (leftToRight detections).Perm detections := List.mergeSort_perm ..
  refine List.Perm.eq_of_pairwise ?_ (pairwise_leftToRight found) (pairwise_leftToRight detections)
    (hfound.trans hsame.symm)
  intro a b ha hb hab hba
  exact h.eq_of_sharesEdge (hfound.mem_iff.1 ha) (hsame.mem_iff.1 hb) ⟨hab, hba⟩

/-- **The order of detection.** Detections with different left edges are assembled to the same text,
or fail alike, in whatever order they were found, and so the page has the same solution under all
settings and with any typesetter. -/
theorem solvePage_eq_of_perm (p : Page κ) {detections found : List (Detection κ)}
    (hapart : EdgesApart detections) (hperm : found.Perm detections) :
    assemble p found = assemble p detections ∧
      ∀ {α : Type} [Coefficient α] (write : α → List Char) (s : SolverSettings α)
        (typesetter : Typesetter),
        solvePage write p s typesetter found = solvePage write p s typesetter detections := by
  have hassemble : assemble p found = assemble p detections := by
    rw [assemble_eq_readRow, assemble_eq_readRow, hapart.leftToRight_eq_of_perm hperm]
  refine ⟨hassemble, ?_⟩
  intro α _ write s typesetter
  unfold solvePage
  rw [hassemble]

/-- A sum over two with a square in it; the symbols start from left to right. -/
def halvedSum : List (Detection Float) :=
  [symbolAt "-" 0.3 0.5 0.4 0.01, symbolAt "x" 0.2 0.35 0.08 0.1, symbolAt "+" 0.27 0.35 0.05 0.05,
    symbolAt "2" 0.31 0.65 0.05 0.1, symbolAt "3" 0.34 0.35 0.05 0.1,
      symbolAt "2" 0.39 0.33 0.03 0.06]

/-- Found from right to left the symbols say the same as from left to right. -/
theorem halvedSum_eq_of_perm :
    (EdgesApart halvedSum ∧ halvedSum.reverse.Perm halvedSum) ∧
      assemble standardPage halvedSum = .ok "(x+3^2)/2".toList ∧
      assemble standardPage halvedSum.reverse = assemble standardPage halvedSum ∧
      solvePage (fun _ => []) standardPage (.standard : SolverSettings Float)
        typeset halvedSum.reverse =
        solvePage (fun _ => []) standardPage .standard typeset halvedSum := by
  have hapart : EdgesApart halvedSum := by decide +kernel
  have hperm : halvedSum.reverse.Perm halvedSum := List.reverse_perm halvedSum
  have hsorted : FromLeft (halvedSum.map (.ofDetection standardPage.geometry)) := by decide +kernel
  have htext : assemble standardPage halvedSum = .ok "(x+3^2)/2".toList := by
    rw [assemble, hsorted.assembleRow_eq]
    decide +kernel
  obtain ⟨hassemble, hsolve⟩ := solvePage_eq_of_perm standardPage hapart hperm
  exact ⟨⟨hapart, hperm⟩, htext, hassemble, hsolve (fun _ => []) .standard typeset⟩

end InkAlgebra

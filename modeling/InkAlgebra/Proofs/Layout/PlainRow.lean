import Mathlib
import InkAlgebra.Layout.Assembly

/-!
# Rows that are read off

A row without bars and without scripts is put together by reading its labels off from left to right.
§1 is the steps of the assembly on such a row, §2 the whole.
-/

namespace InkAlgebra

variable {κ : Type}

/-! ## §1  Steps -/

/-- The leaves of a row as nodes, from a given place on. -/
def plainNodes (place : Nat) (leaves : List (Leaf κ)) : List (Node κ) :=
  (leaves.zipIdx place).map fun (leaf, i) => .plain i leaf

theorem plainNodes_cons (place : Nat) (leaf : Leaf κ) (rest : List (Leaf κ)) :
    plainNodes place (leaf :: rest) = .plain place leaf :: plainNodes (place + 1) rest := rfl

/-- Without fractions every leaf is a node of its own. -/
theorem splice_nil (place : Nat) (leaves : List (Leaf κ)) :
    splice place leaves [] = plainNodes place leaves := by
  induction leaves generalizing place with
  | nil =>
      unfold splice
      rfl
  | cons leaf rest ih =>
      unfold splice
      simp only [List.dropWhile_nil]
      rw [ih, plainNodes_cons]

theorem joinTexts_plainNodes (place : Nat) (leaves : List (Leaf κ)) :
    Page.joinTexts (plainNodes place leaves) = leaves.flatMap (·.text) := by
  induction leaves generalizing place with
  | nil => rfl
  | cons leaf rest ih =>
      show leaf.text ++ [] ++ Page.joinTexts (plainNodes (place + 1) rest) = _
      rw [List.append_nil, ih, List.flatMap_cons]

variable [Coordinate κ]

/-- Without a bar there is no fraction. -/
theorem findFractions_eq_nil (inner : List (Leaf κ) → Except LimitPassed (List Char))
    {leaves : List (Leaf κ)} (hbar : ∀ leaf ∈ leaves, leaf.text ≠ ['-']) :
    findFractions inner leaves = .ok [] := by
  have hnone : Candidate.all leaves = [] := by
    unfold Candidate.all
    rw [List.filterMap_eq_nil_iff]
    rintro ⟨leaf, i⟩ hmem
    exact if_neg (hbar leaf (List.fst_mem_of_mem_zipIdx hmem))
  unfold findFractions
  rw [hnone]
  show Except.ok (List.mergeSort [] _) = _
  rw [List.mergeSort_nil]

/-- Whether no leaf of a row starts a script of the leaf on its left. -/
def Page.IsFlat (p : Page κ) (leaves : List (Leaf κ)) : Prop :=
  leaves.IsChain fun a b => p.isExponent (.plain 0 a) (.plain 0 b) = false

instance (p : Page κ) (leaves : List (Leaf κ)) : Decidable (p.IsFlat leaves) :=
  inferInstanceAs (Decidable (leaves.IsChain _))

/-- Without a script every leaf stays as it is. -/
theorem Page.attachScripts_plainNodes {p : Page κ}
    (inner : List (Leaf κ) → Except LimitPassed (List Char)) (levels : Nat) (all : List (Leaf κ))
    {leaves : List (Leaf κ)} (hflat : p.IsFlat leaves) (place : Nat) :
    p.attachScripts inner levels all (plainNodes place leaves) = .ok (plainNodes place leaves) := by
  induction leaves generalizing place with
  | nil =>
      unfold attachScripts
      rfl
  | cons a rest ih =>
      cases rest with
      | nil =>
          unfold attachScripts
          rfl
      | cons b rest =>
          obtain ⟨hab, hrest⟩ := List.isChain_cons_cons.1 hflat
          have hnone : p.isExponent (.plain place a) (.plain (place + 1) b) = false := hab
          have htail := ih hrest (place + 1)
          rw [plainNodes_cons] at htail
          rw [plainNodes_cons, plainNodes_cons, attachScripts, hnone, htail]
          rfl

/-! ## §2  Whole rows -/

/-- **Plain rows.** A row in order, without bars and scripts, is the labels one after another. -/
theorem Page.assembleRow_of_isFlat {p : Page κ} (levels : Nat) {leaves : List (Leaf κ)}
    (horder : leaves.Pairwise fun a b => Coordinate.precedes a.ink.left b.ink.left = true)
    (hbar : ∀ leaf ∈ leaves, leaf.text ≠ ['-']) (hflat : p.IsFlat leaves) :
    p.assembleRow (levels + 1) leaves = .ok (leaves.flatMap (·.text)) := by
  have hsort : sortLeaves leaves = leaves := List.mergeSort_of_pairwise horder
  rw [assembleRow, hsort, findFractions_eq_nil _ hbar]
  show (do
    let nodes ← p.attachScripts _ levels leaves (splice 0 leaves [])
    return joinTexts nodes) = _
  rw [splice_nil, attachScripts_plainNodes _ levels leaves hflat 0]
  show Except.ok (joinTexts (plainNodes 0 leaves)) = _
  rw [joinTexts_plainNodes]

end InkAlgebra

import Mathlib
import InkAlgebra.Proofs.Layout.Sorted

/-!
# Rows without fractions

Where no minus is a fraction bar, a formula is read off from left to right. Its text is the labels
in the order of their left edges, each once and whole, and what is put in between is carets and
pairs of brackets for scripts and points for products.

The scan for scripts may go any way. A script is a run of leaves that its nodes tile, a run of a
sorted row is sorted, and a bar of a run would be a bar of the row; so what is read off scripts is
put together to what is read off the row.

§1 is labels with marks between them, §2 rows without bars, §3 the order of their trees, §4 whole
pages.
-/

namespace InkAlgebra

variable {κ : Type}

/-! ## §1  Labels with marks -/

/-- Whether a text is labels, in their order and each once, with carets, points and pairs of
brackets put in. -/
inductive ReadsOff : List Label → List Char → Prop
  | nothing : ReadsOff [] []
  | label (l : Label) : ReadsOff [l] l
  | caret : ReadsOff [] ['^']
  | point : ReadsOff [] ['.']
  | brackets {labels : List Label} {text : List Char} (inside : ReadsOff labels text) :
      ReadsOff labels ('(' :: text ++ [')'])
  | append {labels labels' : List Label} {text text' : List Char} (front : ReadsOff labels text)
      (back : ReadsOff labels' text') : ReadsOff (labels ++ labels') (text ++ text')

theorem ReadsOff.bracketedIfAny {labels : List Label} {text : List Char} (h : ReadsOff labels text)
    (operators : List Char) : ReadsOff labels (bracketedIfAny operators text) := by
  unfold InkAlgebra.bracketedIfAny
  split
  · exact h.brackets
  · exact h

namespace Layout

theorem readsOff_mark (l : Layout κ) : ReadsOff [] l.mark := by
  by_cases h : l.mark = []
  · rw [h]
    exact .nothing
  · rw [mark_eq_point h]
    exact .point

/-- A tree without fractions is read off. -/
theorem readsOff_text {l : Layout κ} (h : l.bars = []) :
    ReadsOff (l.symbols.map (·.text)) l.text := by
  induction l with
  | nil => exact .nothing
  | symbol leaf rest ih => exact (ReadsOff.label leaf.text).append (ih h)
  | fraction => cases h
  | power base script rest ihBase ihScript ihRest =>
      obtain ⟨hfront, hrest⟩ := List.append_eq_nil_iff.1 h
      obtain ⟨hbase, hscript⟩ := List.append_eq_nil_iff.1 hfront
      have hraised : ReadsOff (script.symbols.map (·.text))
          ('^' :: bracketedIfAny Page.scriptOperators script.text) :=
        ReadsOff.caret.append ((ihScript hscript).bracketedIfAny _)
      have hmarked := ((ihBase hbase).append hraised).append rest.readsOff_mark
      rw [List.append_nil] at hmarked
      rw [symbols, text, List.map_append, List.map_append]
      exact hmarked.append (ihRest hrest)

end Layout

/-! ## §2  Rows without bars -/

variable [Coordinate κ]

/-- Whether a leaf is centered within the width of a bar. -/
def Candidate.isWithin (bar leaf : Leaf κ) : Bool :=
  !(leaf.box.centerX < bar.box.left || bar.box.right < leaf.box.centerX)

/-- Whether no minus of a row is the bar of a fraction: of what is centered within its width, none
is above it or none is below it. -/
def BarFree (row : List (Leaf κ)) : Prop :=
  ∀ bar ∈ row, bar.text = ['-'] →
    ¬ ((∃ leaf ∈ row, Candidate.isWithin bar leaf = true ∧ leaf.box.centerY < bar.box.centerY) ∧
      ∃ leaf ∈ row, Candidate.isWithin bar leaf = true ∧ bar.box.centerY < leaf.box.centerY)

instance (row : List (Leaf κ)) : Decidable (BarFree row) :=
  inferInstanceAs (Decidable (∀ bar ∈ row, _ → ¬ (_ ∧ _)))

/-- Fewer leaves have no more bars. -/
theorem BarFree.mono {few row : List (Leaf κ)} (h : BarFree row) (hsub : few ⊆ row) :
    BarFree few := by
  rintro bar hbar htext ⟨⟨above, habove, hwithin⟩, below, hbelow, hwithin'⟩
  exact h bar (hsub hbar) htext ⟨⟨above, hsub habove, hwithin⟩, below, hsub hbelow, hwithin'⟩

/-- A row without bars has no candidates for a fraction. -/
theorem BarFree.not_isAt {row : List (Leaf κ)} (h : BarFree row) (c : Candidate κ) (place : ℕ) :
    ¬ c.IsAt row place := by
  intro hat
  obtain ⟨above, below, rfl, rfl, habove, hbelow, _⟩ := Candidate.exists_sides_of_ofBar? hat.ofBar
  have hside : ∀ onSide : Leaf κ → Bool, Candidate.sideOf c.bar place onSide row ≠ [] →
      ∃ leaf ∈ row, Candidate.isWithin c.bar leaf = true ∧ onSide leaf = true := by
    intro onSide hne
    obtain ⟨⟨leaf, i⟩, hmem⟩ := List.exists_mem_of_ne_nil _ hne
    obtain ⟨hrow, hplaced⟩ := List.mem_filter.1 hmem
    rw [Bool.and_eq_true_iff, Bool.and_eq_true_iff] at hplaced
    exact ⟨leaf, List.fst_mem_of_mem_zipIdx hrow, hplaced.1.2, hplaced.2⟩
  obtain ⟨leaf, hleaf, hwithin, honSide⟩ := hside _ habove
  obtain ⟨leaf', hleaf', hwithin', honSide'⟩ := hside _ hbelow
  exact h c.bar (List.mem_of_getElem? hat.bar_at) hat.bar_text
    ⟨⟨leaf, hleaf, hwithin, of_decide_eq_true honSide⟩, leaf', hleaf', hwithin',
      of_decide_eq_true honSide'⟩

/-! ## §3  The order of the symbols -/

namespace Page

variable {p : Page κ} {inner : List (Leaf κ) → Layout κ → Prop} {levels : ℕ}
  {leaves row : List (Leaf κ)} {nodes : List (Node κ)} {l : Layout κ}

/-- Whether a tree has no fractions and shows certain leaves in their order. -/
def ShowsInOrder (row : List (Leaf κ)) (l : Layout κ) : Prop := l.bars = [] ∧ l.symbols = row

theorem LaysNodes.showsInOrder (hfree : BarFree leaves)
    (hinner : ∀ row l, inner row l → row.Sublist leaves → ShowsInOrder row l)
    (h : p.LaysNodes inner levels leaves nodes l) {place : ℕ} (htiles : Tiles place nodes) :
    ShowsInOrder (nodes.flatMap (Node.covered leaves)) l := by
  induction h generalizing place with
  | nil => exact ⟨rfl, rfl⟩
  | @symbol i leaf nodes rest hplace _ _ ih =>
      obtain ⟨hbars, hsymbols⟩ := ih htiles.2
      have hcovered : Node.covered leaves (.plain i leaf) = [leaf] :=
        Span.slice_single_of_getElem? hplace
      rw [List.flatMap_cons, hcovered]
      exact ⟨hbars, congrArg (leaf :: ·) hsymbols⟩
  | fraction _ hat => exact absurd hat (hfree.not_isAt _ _)
  | @power base next nodes b script rest length _ _ _ _ hraised _ ihFront ihBehind =>
      have hscript : scriptLeaves leaves next (nodes.take length) =
          (next :: nodes.take length).flatMap (Node.covered leaves) :=
        (htiles.2.take (length + 1)).slice_eq_flatMap leaves
      obtain ⟨place', hbehind⟩ := htiles.2.2.drop length
      have hnodes : base :: next :: nodes =
          [base] ++ ((next :: nodes.take length) ++ nodes.drop length) :=
        congrArg (base :: next :: ·) (List.take_append_drop length nodes).symm
      obtain ⟨hbaseBars, hbase⟩ := ihFront (htiles.take 1)
      obtain ⟨hscriptBars, hshown⟩ := hinner _ _ hraised (scriptLeaves_sublist ..)
      obtain ⟨hrestBars, hrest⟩ := ihBehind hbehind
      constructor
      · rw [Layout.bars, hbaseBars, hscriptBars, hrestBars]
        rfl
      · rw [Layout.symbols, hbase, hshown, hrest, hnodes, hscript, List.flatMap_append,
          List.flatMap_append, List.append_assoc]

/-- **Rows without bars.** The tree of a row without bars shows the leaves from left to right. -/
theorem LaysRow.showsInOrder {p : Page Float} {row : List (Leaf Float)} {l : Layout Float}
    (hfree : BarFree row) (h : p.LaysRow levels row l) : ShowsInOrder (sortLeaves row) l := by
  induction levels generalizing row l with
  | zero => exact h.elim
  | succ levels ih =>
      obtain ⟨fractions, _, hnodes⟩ := h
      have hsorted := fromLeft_sortLeaves row
      have hfree' : BarFree (sortLeaves row) := hfree.mono (sortLeaves_perm row).subset
      have hinner : ∀ run l, p.LaysRow levels run l → run.Sublist (sortLeaves row) →
          ShowsInOrder run l := by
        intro run l hl hsub
        have hshows := ih (hfree'.mono hsub.subset) hl
        rwa [(hsorted.sublist hsub).sortLeaves_eq] at hshows
      have hcovered : (splice 0 (sortLeaves row) fractions).flatMap
          (Node.covered (sortLeaves row)) = sortLeaves row := flatMap_covered_splice rfl
      have hshows := hnodes.showsInOrder hfree' hinner (tiles_splice ..)
      rwa [hcovered] at hshows

end Page

/-! ## §4  Whole pages -/

/-- **In order.** On a page on which no minus is a fraction bar the labels are read off from left to
right. -/
theorem readsOff_of_barFree {p : Page Float} {detections : List (Detection Float)}
    {text : List Char} (hfree : BarFree (detections.map (.ofDetection p.geometry)))
    (h : assemble p detections = .ok text) :
    ReadsOff ((leftToRight detections).map (·.label.toList)) text := by
  obtain ⟨l, hl, rfl⟩ := Page.exists_laysRow p _ _ _ h
  obtain ⟨hbars, hsymbols⟩ := hl.showsInOrder hfree
  have hread := Layout.readsOff_text hbars
  rwa [hsymbols, sortLeaves_map_ofDetection, List.map_map] at hread

/-- A power with a difference for its script, times a letter, less one. -/
def raisedDifference : List (Detection Float) :=
  [symbolAt "x" 0.3 0.5 0.1 0.1, symbolAt "2" 0.38 0.48 0.03 0.08, symbolAt "-" 0.42 0.48 0.03 0.01,
    symbolAt "3" 0.46 0.48 0.03 0.08, symbolAt "y" 0.6 0.5 0.1 0.14,
      symbolAt "-" 0.75 0.5 0.05 0.01,
    symbolAt "1" 0.85 0.5 0.05 0.1]

theorem raisedDifference_readsOff :
    BarFree (raisedDifference.map (.ofDetection standardPage.geometry)) ∧
      assemble standardPage raisedDifference = .ok "x^(2-3).y-1".toList ∧
      ReadsOff ((leftToRight raisedDifference).map (·.label.toList)) "x^(2-3).y-1".toList := by
  have hfree : BarFree (raisedDifference.map (.ofDetection standardPage.geometry)) := by
    decide +kernel
  have htext : assemble standardPage raisedDifference = .ok "x^(2-3).y-1".toList := by
    have hsorted : FromLeft (raisedDifference.map (.ofDetection standardPage.geometry)) := by
      decide +kernel
    rw [assemble, hsorted.assembleRow_eq]
    decide +kernel
  exact ⟨hfree, htext, readsOff_of_barFree hfree htext⟩

end InkAlgebra

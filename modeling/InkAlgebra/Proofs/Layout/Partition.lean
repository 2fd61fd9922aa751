import Mathlib
import InkAlgebra.Proofs.Layout.Tree

/-!
# Rows without gaps

The runs of the nodes of a row have no gap between them, and none at either end: together they are
all places of the row's leaves, each once and in order. Fractions can be put in wherever they like
as long as they stay inside the row, and a base that takes up a script takes up the runs of all
nodes of the script. So what is cut out for a script is never empty and never reaches beyond the
row.

§1 is rows without gaps, §2 putting in fractions, §3 taking up scripts, §4 what is looked up on the
way.
-/

namespace InkAlgebra

variable {κ : Type}

/-! ## §1  Rows without gaps -/

/-- Whether nodes stand for runs that follow one another, from one place up to another. -/
def TilesRange : ℕ → List (Node κ) → ℕ → Prop
  | start, [], stop => start = stop
  | start, n :: rest, stop => n.span.start = start ∧ TilesRange n.span.stop rest stop

namespace TilesRange

variable {start middle stop : ℕ} {nodes front back more : List (Node κ)} {first : Node κ}

theorem tiles (h : TilesRange start nodes stop) : Tiles start nodes := by
  induction nodes generalizing start with
  | nil => trivial
  | cons n rest ih => exact ⟨h.1, ih h.2⟩

theorem append (hfront : TilesRange start front middle) (hback : TilesRange middle back stop) :
    TilesRange start (front ++ back) stop := by
  induction front generalizing start with
  | nil =>
      obtain rfl : start = middle := hfront
      exact hback
  | cons n rest ih => exact ⟨hfront.1, ih hfront.2⟩

/-- Where the front of a row ends, the rest of it begins. -/
theorem exists_of_append (h : TilesRange start (front ++ back) stop) :
    ∃ middle, TilesRange start front middle ∧ TilesRange middle back stop := by
  induction front generalizing start with
  | nil => exact ⟨start, rfl, h⟩
  | cons n rest ih =>
      obtain ⟨middle, hfront, hback⟩ := ih h.2
      exact ⟨middle, ⟨h.1, hfront⟩, hback⟩

theorem stop_last (h : TilesRange start (first :: more) stop) :
    (more.getLast?.getD first).span.stop = stop := by
  induction more generalizing start first with
  | nil => exact h.2
  | cons second rest ih =>
      rw [List.getLast?_cons, Option.getD_some]
      exact ih h.2

theorem start_le_stop (h : TilesRange start nodes stop) : start ≤ stop := by
  induction nodes generalizing start with
  | nil => exact h.le
  | cons n rest ih => exact h.1.ge.trans (n.span.start_lt_stop.le.trans (ih h.2))

theorem stop_le (h : TilesRange start nodes stop) : ∀ n ∈ nodes, n.span.stop ≤ stop := by
  induction nodes generalizing start with
  | nil => exact fun n hn => absurd hn List.not_mem_nil
  | cons n rest ih => exact List.forall_mem_cons.2 ⟨start_le_stop h.2, ih h.2⟩

/-- The runs of nodes side by side are joined to the run from the first to the last. -/
theorem join_last (h : TilesRange start (first :: more) stop) :
    (first.span.join (more.getLast?.getD first).span).start = start ∧
      (first.span.join (more.getLast?.getD first).span).stop = stop := by
  have hlast := h.tiles.le_last
  have hstop := h.stop_last
  have hstart := h.1
  rw [Span.start_join, Span.stop_join]
  omega

/-- What is looked up for a script. It starts at a node of the row and takes no more of the nodes
behind than there are, so it ends at one, and its leaves are those from the first to the last of its
nodes. -/
theorem exists_last {leaves : List (Leaf κ)} {i length : ℕ} (h : TilesRange start nodes stop)
    (hfirst : nodes[i]? = some first) (hlength : length ≤ (nodes.drop (i + 1)).length) :
    ∃ last, nodes[i + length]? = some last ∧ first.span.start < last.span.stop ∧
      last.span.stop ≤ stop ∧
      Page.scriptLeaves leaves first ((nodes.drop (i + 1)).take length) =
        leaves.extract first.span.start last.span.stop := by
  obtain ⟨hi, rfl⟩ := List.getElem?_eq_some_iff.1 hfirst
  have hrow : nodes.drop i = nodes[i] :: nodes.drop (i + 1) := List.drop_eq_getElem_cons hi
  have hsplit : nodes = nodes.take i ++
      ((nodes[i] :: (nodes.drop (i + 1)).take length) ++ (nodes.drop (i + 1)).drop length) := by
    rw [List.cons_append, List.take_append_drop, ← hrow, List.take_append_drop]
  have hpieces := h
  rw [hsplit] at hpieces
  obtain ⟨_, _, hbehind⟩ := hpieces.exists_of_append
  obtain ⟨middle, hscript, hrest⟩ := hbehind.exists_of_append
  have hlast : nodes[i + length]? =
      some (((nodes.drop (i + 1)).take length).getLast?.getD nodes[i]) := by
    cases length with
    | zero => exact hfirst
    | succ n =>
        have hn : (nodes.drop (i + 1))[n]? = nodes[i + (n + 1)]? := by
          rw [List.getElem?_drop]
          congr 1
          omega
        have hsome : n < (nodes.drop (i + 1)).length := hlength
        rw [List.getLast?_take, if_neg n.succ_ne_zero, Nat.add_sub_cancel, ← hn,
          List.getElem?_eq_getElem hsome]
        rfl
  obtain ⟨hstart, hstop⟩ := hscript.join_last
  have hend := hscript.stop_last
  have hlt :=
    (nodes[i].span.join
      (((nodes.drop (i + 1)).take length).getLast?.getD nodes[i]).span).start_lt_stop
  refine ⟨_, hlast, ?_, ?_, ?_⟩
  · rw [hend, hscript.1, ← hstart, ← hstop]
    exact hlt
  · rw [hend]
    exact hrest.start_le_stop
  · rw [Page.scriptLeaves, Span.slice, hstart, hstop, hend, hscript.1, List.extract_eq_take_drop]

end TilesRange

/-! ## §2  Fractions in their places -/

/-- **Fractions put in.** No leaf is left over and none is used twice, whichever fractions there
are. -/
theorem tilesRange_splice {place : ℕ} {leaves : List (Leaf κ)} {fractions : List (Composite κ)}
    (hinside : ∀ f ∈ fractions, f.span.stop ≤ place + leaves.length) :
    TilesRange place (splice place leaves fractions) (place + leaves.length) := by
  fun_induction splice place leaves fractions with
  | case1 => rfl
  | case2 leaf rest fractions f later hkept ih =>
      have hsub : f :: later ⊆ fractions := hkept ▸ List.dropWhile_subset _
      obtain ⟨hf, hlater⟩ := List.forall_mem_cons.1 fun g hg => hinside g (hsub hg)
      have hlt := f.span.start_lt_stop
      -- the row behind the fraction ends where this one does
      have hend : f.span.stop + (rest.drop (f.span.stop - (f.span.start + 1))).length =
          f.span.start + (leaf :: rest).length := by
        rw [List.length_cons] at hf ⊢
        rw [List.length_drop]
        omega
      rw [← hend] at hlater ⊢
      exact ⟨rfl, ih hlater⟩
  | case3 i leaf rest fractions f later hkept _ ih =>
      have hsub : f :: later ⊆ fractions := hkept ▸ List.dropWhile_subset _
      have hend : i + 1 + rest.length = i + (leaf :: rest).length := by
        rw [List.length_cons]
        omega
      rw [← hend] at hinside ⊢
      exact ⟨rfl, ih fun g hg => hinside g (hsub hg)⟩
  | case4 i leaf rest fractions _ ih =>
      have hend : i + 1 + rest.length = i + (leaf :: rest).length := by
        rw [List.length_cons]
        omega
      rw [← hend]
      exact ⟨rfl, ih fun g hg => absurd hg List.not_mem_nil⟩

section

variable [Coordinate κ] {inner : List (Leaf κ) → Except LimitPassed (List Char)}
  {leaves : List (Leaf κ)}

theorem Candidate.stop_spanOf_le {n place : ℕ} {places : List ℕ} (hplace : place < n)
    (hplaces : ∀ i ∈ places, i < n) :
    (spanOf place places).stop ≤ n := by
  suffices ∀ span : Span, span.stop ≤ n →
      (places.foldl (fun span i => span.join (.single i)) span).stop ≤ n from
    this (.single place) hplace
  induction places with
  | nil => exact fun span hspan => hspan
  | cons i rest ih =>
      obtain ⟨hi, hrest⟩ := List.forall_mem_cons.1 hplaces
      exact fun span hspan => ih hrest _ (max_le hspan hi)

theorem Candidate.stop_le_of_mem_all {c : Candidate κ} (h : c ∈ all leaves) :
    c.span.stop ≤ leaves.length := by
  obtain ⟨place, hat⟩ := exists_isAt_of_mem_all h
  obtain ⟨hplace, _⟩ := List.getElem?_eq_some_iff.1 hat.bar_at
  obtain ⟨above, below, rfl, rfl, _, _, hc⟩ := exists_sides_of_ofBar? hat.ofBar
  rw [hc]
  refine stop_spanOf_le hplace fun i hi => ?_
  obtain ⟨x, hx, rfl⟩ := List.mem_map.1 hi
  rcases List.mem_append.1 hx with hx | hx
  · simpa using List.snd_lt_of_mem_zipIdx (List.mem_filter.1 hx).1
  · simpa using List.snd_lt_of_mem_zipIdx (List.mem_filter.1 hx).1

/-- The fractions that are found in a row stay inside it. -/
theorem stop_le_of_findFractions {fractions : List (Composite κ)}
    (h : findFractions inner leaves = .ok fractions) :
    ∀ f ∈ fractions, f.span.stop ≤ leaves.length := by
  obtain ⟨found, hfound, hsorted⟩ := exists_of_bind_eq_ok h
  obtain rfl := Except.ok.inj hsorted
  intro f hf
  obtain ⟨c, hc, hassemble⟩ := exists_mem_of_mapM_eq_ok hfound f (List.mem_mergeSort.1 hf)
  obtain ⟨_, _, hassemble⟩ := exists_of_bind_eq_ok hassemble
  obtain ⟨_, _, hassemble⟩ := exists_of_bind_eq_ok hassemble
  obtain rfl := Except.ok.inj hassemble
  exact Candidate.stop_le_of_mem_all (Candidate.mem_of_mem_outermost hc)

end

/-! ## §3  Scripts taken up -/

namespace Page

variable {inner : List (Leaf κ) → Except LimitPassed (List Char)} {leaves : List (Leaf κ)}

theorem span_standAlone (leaves : List (Leaf κ)) (n : Node κ) (next : Option (Node κ)) :
    (standAlone leaves n next).span = n.span := by
  cases n with
  | plain i leaf => rfl
  | exponent c => rfl
  | fraction f =>
      obtain ⟨bracketed, hfraction⟩ := exists_standAlone_fraction leaves f next
      rw [hfraction]
      rfl

variable [Coordinate κ]

theorem span_assembleExponent {base first : Node κ} {more : List (Node κ)} {x : Composite κ}
    (h : assembleExponent inner leaves base first more = .ok x) :
    x.span = base.span.join (more.getLast?.getD first).span := by
  obtain ⟨script, _, hx⟩ := exists_of_bind_eq_ok h
  rw [← Except.ok.inj hx]

/-- **Scripts taken up.** A base and its script become one node, which stands where they stood. -/
theorem tilesRange_attachScripts {p : Page κ} {levels start stop : ℕ}
    {nodes resolved : List (Node κ)} (htiles : TilesRange start nodes stop)
    (h : p.attachScripts inner levels leaves nodes = .ok resolved) :
    TilesRange start resolved stop := by
  fun_induction attachScripts p inner levels leaves nodes generalizing start resolved with
  | case1 =>
      obtain rfl := Except.ok.inj h
      exact htiles
  | case2 n =>
      obtain rfl := Except.ok.inj h
      refine ⟨?_, ?_⟩
      · rw [span_standAlone]
        exact htiles.1
      · rw [span_standAlone]
        exact htiles.2
  | case3 base next rest _ ih =>
      obtain ⟨length, _, h⟩ := exists_of_bind_eq_ok h
      obtain ⟨x, hx, h⟩ := exists_of_bind_eq_ok h
      obtain ⟨behind, hbehind, h⟩ := exists_of_bind_eq_ok h
      obtain rfl := Except.ok.inj h
      have hsplit : base :: next :: rest = (base :: next :: rest.take length) ++ rest.drop length :=
        congrArg (base :: next :: ·) (List.take_append_drop length rest).symm
      rw [hsplit] at htiles
      obtain ⟨middle, hfront, hback⟩ := htiles.exists_of_append
      have hjoin := hfront.join_last
      rw [List.getLast?_cons, Option.getD_some] at hjoin
      refine ⟨?_, ?_⟩
      · rw [Node.span, span_assembleExponent hx]
        exact hjoin.1
      · rw [Node.span, span_assembleExponent hx, hjoin.2]
        exact ih length hback hbehind
  | case4 n next rest _ ih =>
      obtain ⟨behind, hbehind, h⟩ := exists_of_bind_eq_ok h
      obtain rfl := Except.ok.inj h
      refine ⟨?_, ?_⟩
      · rw [span_standAlone]
        exact htiles.1
      · rw [span_standAlone]
        exact ih htiles.2 hbehind

/-- Whatever is assembled is joined from nodes without a gap. -/
theorem exists_tilesRange_of_assembleRow {p : Page κ} {levels : ℕ} {row : List (Leaf κ)}
    {text : List Char} (h : p.assembleRow (levels + 1) row = .ok text) :
    ∃ nodes : List (Node κ), TilesRange 0 nodes row.length ∧ joinTexts nodes = text := by
  obtain ⟨fractions, hfractions, h⟩ := exists_of_bind_eq_ok h
  obtain ⟨nodes, hnodes, h⟩ := exists_of_bind_eq_ok h
  have hspliced : TilesRange 0 (splice 0 (sortLeaves row) fractions)
      (0 + (sortLeaves row).length) := by
    refine tilesRange_splice ?_
    rw [Nat.zero_add]
    exact stop_le_of_findFractions hfractions
  rw [Nat.zero_add, (sortLeaves_perm row).length_eq] at hspliced
  exact ⟨nodes, tilesRange_attachScripts hspliced hnodes, Except.ok.inj h⟩

end Page

/-! ## §4  What is looked up -/

/-- **Rows without gaps.** Whatever fractions there are inside a row of leaves, the row with the
fractions in their places stands for all leaves, and so does the row with its scripts taken up. So a
leaf is where one is looked up on the left of a fraction. And a script whose length has been found
ends at a node of the row: its leaves are a run that is not empty and stops within the row. -/
theorem rows_without_gaps [Coordinate κ] (p : Page κ)
    (inner : List (Leaf κ) → Except LimitPassed (List Char)) (levels : ℕ) {leaves : List (Leaf κ)}
    {fractions : List (Composite κ)} (hinside : ∀ f ∈ fractions, f.span.stop ≤ leaves.length) :
    TilesRange 0 (splice 0 leaves fractions) leaves.length ∧
      (∀ resolved, p.attachScripts inner levels leaves (splice 0 leaves fractions) = .ok resolved →
        TilesRange 0 resolved leaves.length) ∧
      (∀ f, .fraction f ∈ splice 0 leaves fractions → f.span.start ≠ 0 →
        ∃ leaf, leaves[f.span.start - 1]? = some leaf) ∧
      ∀ i base first length, (splice 0 leaves fractions)[i]? = some base →
        (splice 0 leaves fractions)[i + 1]? = some first →
        p.scriptLength levels base first ((splice 0 leaves fractions).drop (i + 2)) = .ok length →
        ∃ last, (splice 0 leaves fractions)[i + 1 + length]? = some last ∧
          first.span.start < last.span.stop ∧ last.span.stop ≤ leaves.length ∧
          Page.scriptLeaves leaves first (((splice 0 leaves fractions).drop (i + 2)).take length) =
            leaves.extract first.span.start last.span.stop := by
  have htiles : TilesRange 0 (splice 0 leaves fractions) leaves.length := by
    have hspliced : TilesRange 0 (splice 0 leaves fractions) (0 + leaves.length) := by
      refine tilesRange_splice ?_
      rwa [Nat.zero_add]
    rwa [Nat.zero_add] at hspliced
  generalize splice 0 leaves fractions = row at htiles
  refine ⟨htiles, fun _ => Page.tilesRange_attachScripts htiles, ?_, ?_⟩
  · intro f hf hstart
    have hstop : f.span.stop ≤ leaves.length := htiles.stop_le _ hf
    have hlt := f.span.start_lt_stop
    exact ⟨_, List.getElem?_eq_getElem (by omega)⟩
  · intro i base first length _ hfirst hlength
    exact htiles.exists_last hfirst (Page.scriptLength_le hlength)

/-- A square with a half behind it, from left to right. -/
def squareBeforeHalf : List (Leaf Float) :=
  [symbolAt "x" 0.3 0.5 0.1 0.1, symbolAt "2" 0.38 0.48 0.03 0.08, symbolAt "-" 0.6 0.5 0.1 0.01,
    symbolAt "1" 0.6 0.4 0.05 0.1, symbolAt "2" 0.6 0.6 0.05 0.1].map (.ofDetection .standard)

/-- The leaves of the half, the three behind the first two. -/
def behindSquare : Span := ⟨2, 2 + 3, Nat.lt_add_of_pos_right (Nat.succ_pos 2)⟩

def halfBehindSquare : List (Composite Float) :=
  [⟨"1/2".toList, ⟨0.6, 0.5, 0.1, 0.3⟩, behindSquare⟩]

/-- The square takes up two leaves and the half three. -/
theorem squareBeforeHalf_without_gaps :
    (∀ f ∈ halfBehindSquare, f.span.stop ≤ squareBeforeHalf.length) ∧
      TilesRange 0 (splice 0 squareBeforeHalf halfBehindSquare) 5 ∧
      ∃ resolved, standardPage.attachScripts (standardPage.assembleRow 8) 8 squareBeforeHalf
          (splice 0 squareBeforeHalf halfBehindSquare) = .ok resolved ∧
        resolved.map Node.span = [⟨0, 2, by decide⟩, behindSquare] ∧ TilesRange 0 resolved 5 := by
  have hinside : ∀ f ∈ halfBehindSquare, f.span.stop ≤ squareBeforeHalf.length := by decide
  have hgaps := rows_without_gaps standardPage (standardPage.assembleRow 8) 8 hinside
  have hspans : (standardPage.attachScripts (standardPage.assembleRow 8) 8 squareBeforeHalf
      (splice 0 squareBeforeHalf halfBehindSquare)).toOption.map (·.map Node.span) =
      some [⟨0, 2, by decide⟩, behindSquare] := by
    decide +kernel
  cases hresolved : standardPage.attachScripts (standardPage.assembleRow 8) 8 squareBeforeHalf
      (splice 0 squareBeforeHalf halfBehindSquare) with
  | error e =>
      rw [hresolved] at hspans
      cases hspans
  | ok resolved =>
      rw [hresolved] at hspans
      exact ⟨hinside, hgaps.1, resolved, rfl, Option.some.inj hspans, hgaps.2.1 resolved hresolved⟩

end InkAlgebra

import Mathlib
import InkAlgebra.Proofs.Layout.Tree
import InkAlgebra.Proofs.Number.Binary64

/-!
# What becomes of the symbols

A fraction stands for all leaves from its leftmost to its rightmost member. Of these its text shows
those on its two sides; the bar is the stroke, and a leaf between the members that is on neither
side is not shown at all. Apart from that nothing is lost and nothing is made up but brackets,
strokes, carets and points.

§1 is the leaves of a fraction, §2 those of a tree, §3 the characters of a text, §4 whole pages.
-/

namespace InkAlgebra

variable {κ : Type}

/-! ## §1  The leaves of a fraction -/

namespace Candidate

theorem holds_foldl_join {places : List ℕ} {span : Span} {i : ℕ}
    (h : span.holds i = true ∨ i ∈ places) :
    (places.foldl (fun span j => span.join (.single j)) span).holds i = true := by
  induction places generalizing span with
  | nil => exact h.resolve_right List.not_mem_nil
  | cons j rest ih =>
      apply ih
      rcases h with h | h
      · left
        rw [Span.holds_iff] at h ⊢
        simp only [Span.start_join, Span.stop_join]
        omega
      · rcases List.mem_cons.1 h with rfl | h
        · left
          rw [Span.holds_iff]
          simp only [Span.start_join, Span.stop_join, Span.single]
          omega
        · exact .inr h

theorem holds_spanOf_self (place : ℕ) (places : List ℕ) :
    (spanOf place places).holds place = true :=
  holds_foldl_join (.inl (Span.holds_iff.2 ⟨le_rfl, Nat.lt_succ_self place⟩))

theorem holds_spanOf_of_mem {place i : ℕ} {places : List ℕ} (h : i ∈ places) :
    (spanOf place places).holds i = true :=
  holds_foldl_join (.inr h)

variable [Coordinate κ] {leaves : List (Leaf κ)} {c : Candidate κ} {place : ℕ}

theorem IsAt.holds_bar (h : c.IsAt leaves place) : c.span.holds place = true := by
  obtain ⟨above, below, _, _, _, _, hc⟩ := exists_sides_of_ofBar? h.ofBar
  rw [hc]
  exact holds_spanOf_self place _

theorem IsAt.holds_side (h : c.IsAt leaves place) {x : Leaf κ × ℕ}
    (hx : x ∈ sideAbove leaves c.bar place ∨ x ∈ sideBelow leaves c.bar place) :
    c.span.holds x.2 = true := by
  obtain ⟨above, below, rfl, rfl, _, _, hc⟩ := exists_sides_of_ofBar? h.ofBar
  rw [hc]
  exact holds_spanOf_of_mem (List.mem_map_of_mem (List.mem_append.2 hx))

/-- The bar is the one leaf in its place. -/
theorem IsAt.filter_bar (h : c.IsAt leaves place) :
    ((leaves.zipIdx.filter fun x => c.span.holds x.2).filter fun x => x.2 = place).map (·.1) =
      [c.bar] := by
  have hsingle : ∀ x ∈ leaves.zipIdx,
      (decide (x.2 = place) && c.span.holds x.2) = (Span.single place).holds x.2 := by
    intro x _
    rw [Bool.eq_iff_iff, Bool.and_eq_true_iff, decide_eq_true_iff,
      Span.holds_single, and_iff_left_iff_imp]
    rintro rfl
    exact h.holds_bar
  rw [List.filter_filter, List.filter_congr hsingle, Span.map_fst_filter_holds]
  exact Span.slice_single_of_getElem? h.bar_at

/-- The leaves of a fraction that are not its bar. -/
def beside (leaves : List (Leaf κ)) (c : Candidate κ) (place : ℕ) : List (Leaf κ × ℕ) :=
  (leaves.zipIdx.filter fun x => c.span.holds x.2).filter fun x => !decide (x.2 = place)

theorem IsAt.filter_above (h : c.IsAt leaves place) :
    ((beside leaves c place).filter fun x => isOnSide c.bar x.1).filter
        (fun x => x.1.box.centerY < c.bar.box.centerY) = sideAbove leaves c.bar place := by
  rw [beside, List.filter_filter, List.filter_filter, List.filter_filter]
  refine List.filter_congr fun x hx => ?_
  have hholds := fun hside => h.holds_side (.inl (List.mem_filter.2 ⟨hx, hside⟩))
  grind [isOnSide]

theorem IsAt.filter_below (hasymm : ∀ a b : κ, a < b → ¬ b < a) (h : c.IsAt leaves place) :
    ((beside leaves c place).filter fun x => isOnSide c.bar x.1).filter
        (fun x => !decide (x.1.box.centerY < c.bar.box.centerY)) =
            sideBelow leaves c.bar place := by
  rw [beside, List.filter_filter, List.filter_filter, List.filter_filter]
  refine List.filter_congr fun x hx => ?_
  have hholds := fun hside => h.holds_side (.inr (List.mem_filter.2 ⟨hx, hside⟩))
  have hbelow := hasymm c.bar.box.centerY x.1.box.centerY
  grind [isOnSide]

theorem filter_stranger (leaves : List (Leaf κ)) (c : Candidate κ) (place : ℕ) :
    ((beside leaves c place).filter fun x => !isOnSide c.bar x.1).map (·.1) =
        c.strangers leaves place := by
  rw [beside, List.filter_filter, List.filter_filter, strangers]
  congr 1
  refine List.filter_congr fun x _ => ?_
  grind

/-- The leaves beside a bar are those on its sides and the strangers. -/
theorem IsAt.beside_perm (hasymm : ∀ a b : κ, a < b → ¬ b < a) (h : c.IsAt leaves place) :
    ((beside leaves c place).map (·.1)).Perm
      (c.numerator ++ c.denominator ++ c.strangers leaves place) := by
  obtain ⟨above, below, habove, hbelow, _, _, hc⟩ := exists_sides_of_ofBar? h.ofBar
  have hnum : c.numerator = (sideAbove leaves c.bar place).map (·.1) := by rw [habove, hc]
  have hden : c.denominator = (sideBelow leaves c.bar place).map (·.1) := by rw [hbelow, hc]
  -- first by whether a leaf is on a side at all, then by which one
  have hside := List.filter_append_perm (fun x => isOnSide c.bar x.1) (beside leaves c place)
  have hsplit := List.filter_append_perm (fun x => decide (x.1.box.centerY < c.bar.box.centerY))
    ((beside leaves c place).filter fun x => isOnSide c.bar x.1)
  rw [h.filter_above, h.filter_below hasymm] at hsplit
  have hall := (((hsplit.append_right _).trans hside).map (·.1)).symm
  rw [List.map_append, List.map_append, ← hnum, ← hden, filter_stranger] at hall
  exact hall

/-- The leaves of a fraction are its bar, its sides and the strangers between them. -/
theorem IsAt.slice_perm (hasymm : ∀ a b : κ, a < b → ¬ b < a) (h : c.IsAt leaves place) :
    (c.span.slice leaves).Perm
      (c.bar :: (c.numerator ++ c.denominator ++ c.strangers leaves place)) := by
  have hsplit := (List.filter_append_perm (fun x : Leaf κ × ℕ => x.2 = place)
    (leaves.zipIdx.filter fun x => c.span.holds x.2)).symm.map (·.1)
  rw [Span.map_fst_filter_holds, List.map_append, h.filter_bar] at hsplit
  exact hsplit.trans ((h.beside_perm hasymm).append_left _)

end Candidate

/-! ## §2  The leaves of a tree -/

namespace Layout

/-- The leaves whose labels are shown. -/
def symbols : Layout κ → List (Leaf κ)
  | nil => []
  | symbol leaf rest => leaf :: rest.symbols
  | fraction _ _ _ num den rest => num.symbols ++ den.symbols ++ rest.symbols
  | power base script rest => base.symbols ++ script.symbols ++ rest.symbols

/-- The leaves that are shown as the stroke of a fraction. -/
def bars : Layout κ → List (Leaf κ)
  | nil => []
  | symbol _ rest => rest.bars
  | fraction bar _ _ num den rest => bar :: (num.bars ++ den.bars ++ rest.bars)
  | power base script rest => base.bars ++ script.bars ++ rest.bars

/-- The leaves that are not shown. -/
def strangers : Layout κ → List (Leaf κ)
  | nil => []
  | symbol _ rest => rest.strangers
  | fraction _ strangers _ num den rest =>
      strangers ++ (num.strangers ++ den.strangers ++ rest.strangers)
  | power base script rest => base.strangers ++ script.strangers ++ rest.strangers

def leaves (l : Layout κ) : Multiset (Leaf κ) := l.symbols + l.bars + l.strangers

theorem leaves_symbol (leaf : Leaf κ) (rest : Layout κ) :
    (symbol leaf rest).leaves = {leaf} + rest.leaves := by
  simp only [leaves, symbols, bars, strangers, ← Multiset.cons_coe, ← Multiset.singleton_add]
  abel

theorem leaves_fraction (bar : Leaf κ) (between : List (Leaf κ)) (bracketed : Bool)
    (num den rest : Layout κ) :
    (fraction bar between bracketed num den rest).leaves =
      {bar} + num.leaves + den.leaves + between + rest.leaves := by
  simp only [leaves, symbols, bars, strangers, ← Multiset.cons_coe, ← Multiset.singleton_add,
    ← Multiset.coe_add]
  abel

theorem leaves_power (base script rest : Layout κ) :
    (power base script rest).leaves = base.leaves + script.leaves + rest.leaves := by
  simp only [leaves, symbols, bars, strangers, ← Multiset.coe_add]
  abel

end Layout

namespace Page

variable [Coordinate κ] {p : Page κ} {inner : List (Leaf κ) → Layout κ → Prop} {levels : ℕ}
  {leaves row : List (Leaf κ)} {nodes : List (Node κ)} {l : Layout κ}

/-- A tree holds the leaves of the nodes that it is behind. -/
theorem LaysNodes.leaves_eq (hasymm : ∀ a b : κ, a < b → ¬ b < a)
    (hinner : ∀ row l, inner row l → l.leaves = row) (h : p.LaysNodes inner levels leaves nodes l)
    {place : ℕ} (htiles : Tiles place nodes) :
    l.leaves = (nodes.flatMap (Node.covered leaves) : List (Leaf κ)) := by
  induction h generalizing place with
  | nil => rfl
  | @symbol i leaf nodes rest hplace _ _ ih =>
      have hcovered : Node.covered leaves (.plain i leaf) = [leaf] :=
        Span.slice_single_of_getElem? hplace
      rw [Layout.leaves_symbol, ih htiles.2, List.flatMap_cons, hcovered]
      rfl
  | @fraction f c i num den nodes rest _ hat hquot _ _ ih =>
      have hcovered : (Node.covered leaves (.fraction f) : Multiset (Leaf κ)) =
          {c.bar} + num.leaves + den.leaves + c.strangers leaves i := by
        rw [hinner _ _ hquot.numerator, hinner _ _ hquot.denominator, Node.covered, Node.span,
          hquot.span, Multiset.coe_eq_coe.2 (hat.slice_perm hasymm)]
        simp only [← Multiset.cons_coe, ← Multiset.singleton_add, ← Multiset.coe_add, add_assoc]
      rw [Layout.leaves_fraction, ih htiles.2, List.flatMap_cons, ← Multiset.coe_add, hcovered]
  | @power base next nodes b script rest length _ _ _ _ hraised _ ihFront ihBehind =>
      -- the script is cut out as one run of leaves, which its nodes tile
      have hscript : scriptLeaves leaves next (nodes.take length) =
          (next :: nodes.take length).flatMap (Node.covered leaves) :=
        (htiles.2.take (length + 1)).slice_eq_flatMap leaves
      obtain ⟨place', hbehind⟩ := htiles.2.2.drop length
      have hfront : Tiles place [base] := htiles.take 1
      have hnodes : base :: next :: nodes =
          [base] ++ ((next :: nodes.take length) ++ nodes.drop length) :=
        congrArg (base :: next :: ·) (List.take_append_drop length nodes).symm
      rw [Layout.leaves_power, ihFront hfront, hinner _ _ hraised, hscript, ihBehind hbehind,
        hnodes, List.flatMap_append, List.flatMap_append, ← Multiset.coe_add,
        ← Multiset.coe_add, add_assoc]

/-- **Ledger.** Every leaf of a row is in its tree exactly once: shown, the stroke of a fraction, or
a stranger. -/
theorem LaysRow.leaves_eq (hasymm : ∀ a b : κ, a < b → ¬ b < a) (h : p.LaysRow levels row l) :
    l.leaves = row := by
  induction levels generalizing row l with
  | zero => exact h.elim
  | succ levels ih =>
      obtain ⟨fractions, _, hnodes⟩ := h
      have hcovered : (splice 0 (sortLeaves row) fractions).flatMap
          (Node.covered (sortLeaves row)) = sortLeaves row := flatMap_covered_splice rfl
      rw [hnodes.leaves_eq hasymm (fun _ _ => ih) (tiles_splice ..), hcovered]
      exact Multiset.coe_eq_coe.2 (sortLeaves_perm row)

/-- Only a minus is ever the stroke of a fraction. -/
theorem LaysNodes.bar_text (hinner : ∀ row l, inner row l → ∀ bar ∈ l.bars, bar.text = ['-'])
    (h : p.LaysNodes inner levels leaves nodes l) : ∀ bar ∈ l.bars, bar.text = ['-'] := by
  induction h with
  | nil => exact fun bar hbar => absurd hbar List.not_mem_nil
  | symbol _ _ _ ih => exact ih
  | fraction _ hat hquot _ _ ih =>
      refine List.forall_mem_cons.2 ⟨hat.bar_text, ?_⟩
      simp only [List.forall_mem_append]
      exact ⟨⟨hinner _ _ hquot.numerator, hinner _ _ hquot.denominator⟩, ih⟩
  | power _ _ _ _ hraised _ ihFront ihBehind =>
      simp only [Layout.bars, List.forall_mem_append]
      exact ⟨⟨ihFront, hinner _ _ hraised⟩, ihBehind⟩

theorem LaysRow.bar_text (h : p.LaysRow levels row l) : ∀ bar ∈ l.bars, bar.text = ['-'] := by
  induction levels generalizing row l with
  | zero => exact h.elim
  | succ levels ih =>
      obtain ⟨fractions, _, hnodes⟩ := h
      exact hnodes.bar_text fun _ _ => ih

end Page

/-! ## §3  The characters of a text -/

namespace Layout

/-- The characters that the layout puts in by itself. -/
def ownMarks : List Char := ['(', ')', '/', '^', '.']

/-- Whether a text is certain characters, with marks of the layout put in. -/
def AddsMarks (shown : Multiset Char) (text : List Char) : Prop :=
  ∃ own : Multiset Char, (∀ c ∈ own, c ∈ ownMarks) ∧ text = shown + own

namespace AddsMarks

variable {a b : Multiset Char} {s t : List Char}

theorem refl (text : List Char) : AddsMarks text text :=
  ⟨0, fun c hc => absurd hc (Multiset.notMem_zero c), (add_zero _).symm⟩

theorem own {marks : List Char} (h : marks ⊆ ownMarks) : AddsMarks 0 marks :=
  ⟨marks, fun _ hc => h (Multiset.mem_coe.1 hc), (zero_add _).symm⟩

theorem mark {c : Char} (h : c ∈ ownMarks) : AddsMarks 0 [c] :=
  own (List.cons_subset.2 ⟨h, List.nil_subset _⟩)

theorem append (hs : AddsMarks a s) (ht : AddsMarks b t) : AddsMarks (a + b) (s ++ t) := by
  obtain ⟨own, hown, hs⟩ := hs
  obtain ⟨own', hown', ht⟩ := ht
  refine ⟨own + own', fun c hc => (Multiset.mem_add.1 hc).elim (hown c) (hown' c), ?_⟩
  rw [← Multiset.coe_add, hs, ht, add_add_add_comm]

theorem bracketed (ht : AddsMarks a t) : AddsMarks a ('(' :: t ++ [')']) := by
  have hopening : AddsMarks 0 ['('] := mark (by simp [ownMarks])
  have hclosing : AddsMarks 0 [')'] := mark (by simp [ownMarks])
  have h := (hopening.append ht).append hclosing
  rwa [zero_add, add_zero] at h

theorem bracketedIfAny (ht : AddsMarks a t) (operators : List Char) :
    AddsMarks a (bracketedIfAny operators t) := by
  unfold InkAlgebra.bracketedIfAny
  split
  · exact ht.bracketed
  · exact ht

/-- Two texts with a mark between them. -/
theorem joined (hs : AddsMarks a s) {c : Char} (hc : c ∈ ownMarks) (ht : AddsMarks b t) :
    AddsMarks (a + b) (s ++ c :: t) := by
  have h := hs.append ((mark hc).append ht)
  rwa [zero_add] at h

end AddsMarks

/-- The labels of leaves, character by character. -/
def labels (leaves : List (Leaf κ)) : Multiset Char := leaves.flatMap (·.text)

theorem labels_append (some more : List (Leaf κ)) :
    labels (some ++ more) = labels some + labels more := by
  rw [labels, List.flatMap_append]
  rfl

theorem labels_eq_of_perm {few more : List (Leaf κ)} (h : few.Perm more) :
    labels few = labels more :=
  Multiset.coe_eq_coe.2 (h.flatMap_right _)

theorem labels_bars {bars : List (Leaf κ)} (h : ∀ bar ∈ bars, bar.text = ['-']) :
    labels bars = Multiset.replicate bars.length '-' := by
  induction bars with
  | nil => rfl
  | cons bar rest ih =>
      obtain ⟨hbar, hrest⟩ := List.forall_mem_cons.1 h
      rw [List.length_cons, Multiset.replicate_succ, ← ih hrest, labels, List.flatMap_cons, hbar]
      rfl

theorem mark_subset_ownMarks (l : Layout κ) : l.mark ⊆ ownMarks := by
  have hpoint : ['.'] ⊆ ownMarks := by simp [ownMarks]
  cases l with
  | nil => exact List.nil_subset _
  | symbol leaf rest =>
      by_cases hop : Label.isOperator leaf.text = true
      · rw [mark, if_pos hop]
        exact List.nil_subset _
      · rw [mark, if_neg hop]
        exact hpoint
  | fraction => exact hpoint
  | power => exact hpoint

/-- A text is the labels of the symbols that it shows, with marks put in. -/
theorem addsMarks_text (l : Layout κ) : AddsMarks (labels l.symbols) l.text := by
  induction l with
  | nil => exact .refl []
  | symbol leaf rest ih => exact (AddsMarks.refl leaf.text).append ih
  | fraction bar between bracketed num den rest ihNum ihDen ihRest =>
      have hquotient : AddsMarks (labels num.symbols + labels den.symbols)
          (quotientText num.text den.text) :=
        (ihNum.bracketedIfAny _).joined (by simp [ownMarks]) (ihDen.bracketedIfAny _)
      rw [symbols, labels_append, labels_append, text]
      split
      · exact hquotient.bracketed.append ihRest
      · exact hquotient.append ihRest
  | power base script rest ihBase ihScript ihRest =>
      have hpower : AddsMarks (labels base.symbols + labels script.symbols)
          (base.text ++ '^' :: bracketedIfAny Page.scriptOperators script.text) :=
        ihBase.joined (by simp [ownMarks]) (ihScript.bracketedIfAny _)
      have hmarked := hpower.append (AddsMarks.own rest.mark_subset_ownMarks)
      rw [add_zero] at hmarked
      rw [symbols, labels_append, labels_append, text]
      exact hmarked.append ihRest

end Layout

/-! ## §4  Whole pages -/

/-- What a tree says about a page and its text. Every detection is in the tree exactly once: as a
symbol that is shown, as the stroke of a fraction, which was detected as a minus, or as a stranger
between the members of a fraction. The text has the labels of the symbols, and marks that were put
in. -/
structure Page.Accounts [Coordinate κ] (p : Page κ) (detections : List (Detection κ))
    (text : List Char) (l : Layout κ) (own : Multiset Char) : Prop where
  laysRow : p.LaysRow (p.geometry.maxDepth + 1) (detections.map (.ofDetection p.geometry)) l
  text_eq : l.text = text
  leaves_eq : l.leaves = (detections.map (.ofDetection p.geometry) : List (Leaf κ))
  bar_text : ∀ bar ∈ l.bars, bar.text = ['-']
  own_marks : ∀ c ∈ own, c ∈ Layout.ownMarks
  text_split : (text : Multiset Char) = Layout.labels l.symbols + own

/-- The characters of all labels on a page. -/
def pageLabels (detections : List (Detection κ)) : Multiset Char :=
  detections.flatMap (·.label.toList)

variable [Coordinate κ] {p : Page κ} {detections : List (Detection κ)}
  {text : List Char} {l : Layout κ} {own : Multiset Char}

theorem exists_accounts (hasymm : ∀ a b : κ, a < b → ¬ b < a)
    (h : assemble p detections = .ok text) :
    ∃ l own, p.Accounts detections text l own := by
  obtain ⟨l, hl, rfl⟩ := Page.exists_laysRow p _ _ _ h
  obtain ⟨own, hown, htext⟩ := l.addsMarks_text
  exact ⟨l, own, hl, rfl, hl.leaves_eq hasymm, hl.bar_text, hown, htext⟩

theorem Page.Accounts.pageLabels_eq (h : p.Accounts detections text l own) :
    pageLabels detections =
      Layout.labels l.symbols + Multiset.replicate l.bars.length '-' +
        Layout.labels l.strangers := by
  have hperm : (l.symbols ++ l.bars ++ l.strangers).Perm
      (detections.map (.ofDetection p.geometry)) :=
    Multiset.coe_eq_coe.1 h.leaves_eq
  rw [← Layout.labels_bars h.bar_text, ← Layout.labels_append, ← Layout.labels_append,
    Layout.labels_eq_of_perm hperm, Layout.labels, List.flatMap_map]
  rfl

theorem Page.Accounts.pageLabels_le_iff (h : p.Accounts detections text l own) :
    pageLabels detections - Multiset.replicate l.bars.length '-' ≤ text ↔
        Layout.labels l.strangers ≤ own := by
  rw [h.pageLabels_eq, h.text_split, add_right_comm,
    Multiset.add_sub_cancel_right, add_le_add_iff_left]

/-- **Symbols.** The labels of a page, less a minus for every stroke, are all in its text exactly if
the labels of the strangers are among the marks that were put in. So without strangers nothing is
lost. -/
theorem pageLabels_le_text_iff {p : Page Float} {detections : List (Detection Float)}
    {text : List Char} (h : assemble p detections = .ok text) :
    ∃ l own, p.Accounts detections text l own ∧
      (pageLabels detections - Multiset.replicate l.bars.length '-' ≤ text ↔
          Layout.labels l.strangers ≤ own) := by
  obtain ⟨l, own, haccounts⟩ := exists_accounts (fun _ _ => Binary64.lt_asymm) h
  exact ⟨l, own, haccounts, haccounts.pageLabels_le_iff⟩

/-- A quotient and a power. -/
def quotientAndPower : List (Detection Float) :=
  [symbolAt "-" 0.3 0.5 0.2 0.01, symbolAt "1" 0.3 0.4 0.05 0.1, symbolAt "y" 0.3 0.6 0.05 0.1,
    symbolAt "+" 0.5 0.5 0.06 0.06, symbolAt "x" 0.65 0.5 0.1 0.1, symbolAt "2" 0.74 0.48 0.04 0.06]

theorem quotientAndPower_accounts :
    assemble standardPage quotientAndPower = .ok "1/y+x^2".toList ∧
      ∃ l own, standardPage.Accounts quotientAndPower "1/y+x^2".toList l own ∧
        (pageLabels quotientAndPower - Multiset.replicate l.bars.length '-' ≤
          ("1/y+x^2".toList : Multiset Char) ↔ Layout.labels l.strangers ≤ own) := by
  have h : assemble standardPage quotientAndPower = .ok "1/y+x^2".toList := by
    rw [assemble_of_sorted (by decide +kernel)]
    decide +kernel
  exact ⟨h, pageLabels_le_text_iff h⟩

/-- An equation whose sign is as wide as what it stands beside: a half equals `x`. -/
def wideEquation : List (Detection Float) :=
  [symbolAt "-" 0.3 0.5 0.2 0.01, symbolAt "1" 0.25 0.4 0.05 0.1, symbolAt "=" 0.5 0.5 0.4 0.05,
    symbolAt "2" 0.35 0.6 0.05 0.1, symbolAt "x" 0.85 0.5 0.05 0.1]

/-- The sign starts between the numbers of the fraction, so it is taken for a part of it, and it is
on neither side: however many strokes are left out of account, the text lacks it. -/
theorem equalsSign_lost :
    assemble standardPage wideEquation = .ok "(1/2)x".toList ∧
      ∀ strokes, ¬ pageLabels wideEquation - Multiset.replicate strokes '-' ≤
          ("(1/2)x".toList : Multiset Char) := by
  constructor
  · rw [assemble_of_sorted (by decide +kernel)]
    decide +kernel
  · intro strokes hle
    have hcount := Multiset.count_le_of_le '=' hle
    have hminus : ¬ '-' = '=' := by decide
    rw [Multiset.count_sub, Multiset.count_replicate, if_neg hminus] at hcount
    exact absurd hcount (by decide)

end InkAlgebra

import Mathlib
import InkAlgebra.Settings
import InkAlgebra.Proofs.Layout.Grouping
import InkAlgebra.Proofs.Layout.Tiling
import InkAlgebra.Proofs.Steps

/-!
# The layout behind a text

The assembly of a page yields text only. The layout that it went through is a tree: symbols in a
row, fractions with two sides, powers with a base and a script, each side and script a row of its
own. Every assembled text is the writing of such a tree (`exists_laysRow`), so that what is said
about trees holds of texts.

§1 is the tree and its text, §2 which fractions a row holds, §3 the texts of nodes, §4 which trees
are behind a row, §5 that there is one behind every text, with a page to try it on.
-/

namespace InkAlgebra

variable {κ : Type}

/-! ## §1  Trees -/

/-- A row, from some piece on. A fraction has a bar, leaves that it covers though they are on
neither side of the bar, and brackets if it needs them between its neighbours. -/
inductive Layout (κ : Type) where
  | nil
  | symbol (leaf : Leaf κ) (rest : Layout κ)
  | fraction (bar : Leaf κ) (strangers : List (Leaf κ)) (bracketed : Bool)
      (numerator denominator rest : Layout κ)
  | power (base script rest : Layout κ)

namespace Layout

/-- What stands between a power and the row behind it: the point of a product, unless an operator
follows. -/
def mark : Layout κ → List Char
  | nil => []
  | symbol leaf _ => if Label.isOperator leaf.text then [] else ['.']
  | fraction .. | power .. => ['.']

def quotientText (numerator denominator : List Char) : List Char :=
  bracketedIfAny Candidate.operators numerator ++
    '/' :: bracketedIfAny Candidate.operators denominator

def text : Layout κ → List Char
  | nil => []
  | symbol leaf rest => leaf.text ++ rest.text
  | fraction _ _ bracketed num den rest =>
    (if bracketed then '(' :: quotientText num.text den.text ++
      [')'] else quotientText num.text den.text) ++ rest.text
  | power base script rest =>
    base.text ++ '^' :: bracketedIfAny Page.scriptOperators script.text ++ rest.mark ++ rest.text

end Layout

/-! ## §2  Fractions of a row -/

namespace Candidate

theorem mem_of_mem_outermost {candidates : List (Candidate κ)} {c : Candidate κ}
    (h : c ∈ outermost candidates) : c ∈ candidates := by
  have hfold : ∀ kept, c ∈ candidates.foldl keepOutermost kept → c ∈ kept ∨ c ∈ candidates := by
    clear h
    induction candidates with
    | nil => exact fun kept h => .inl h
    | cons d rest ih =>
        intro kept h
        rcases ih (keepOutermost kept d) h with h | h
        · rcases mem_of_mem_keepOutermost h with h | rfl
          · exact .inl h
          · exact .inr (List.mem_cons_self ..)
        · exact .inr (List.mem_cons_of_mem d h)
  exact (hfold [] h).resolve_left List.not_mem_nil

variable [Coordinate κ]

/-- Whether a leaf is on one of the sides of a bar: within its width, and above or below. -/
def isOnSide (bar leaf : Leaf κ) : Bool :=
  !(leaf.box.centerX < bar.box.left || bar.box.right < leaf.box.centerX) &&
    (leaf.box.centerY < bar.box.centerY || bar.box.centerY < leaf.box.centerY)

/-- The leaves between the members of a fraction that are neither its bar nor on one of its
sides. -/
def strangers (leaves : List (Leaf κ)) (place : ℕ) (c : Candidate κ) : List (Leaf κ) :=
  (leaves.zipIdx.filter fun (leaf, i) =>
    c.span.holds i && (i ≠ place && !isOnSide c.bar leaf)).map (·.1)

def sideAbove (leaves : List (Leaf κ)) (bar : Leaf κ) (place : ℕ) : List (Leaf κ × ℕ) :=
  sideOf bar place (fun leaf => leaf.box.centerY < bar.box.centerY) leaves

def sideBelow (leaves : List (Leaf κ)) (bar : Leaf κ) (place : ℕ) : List (Leaf κ × ℕ) :=
  sideOf bar place (fun leaf => bar.box.centerY < leaf.box.centerY) leaves

/-- Whether a candidate is that of the bar in some place of a row. -/
structure IsAt (leaves : List (Leaf κ)) (c : Candidate κ) (place : ℕ) : Prop where
  bar_at : leaves[place]? = some c.bar
  bar_text : c.bar.text = ['-']
  ofBar : ofBar? leaves c.bar place = some c

theorem exists_sides_of_ofBar? {leaves : List (Leaf κ)} {bar : Leaf κ} {place : ℕ} {c : Candidate κ}
    (h : ofBar? leaves bar place = some c) :
    ∃ above below, sideAbove leaves bar place = above ∧ sideBelow leaves bar place = below ∧
      above ≠ [] ∧ below ≠ [] ∧
      c = ⟨bar, above.map (·.1), below.map (·.1), spanOf place ((above ++ below).map (·.2))⟩ := by
  refine ⟨_, _, rfl, rfl, ?_⟩
  unfold ofBar? at h
  dsimp only at h
  rw [Option.ite_none_left_eq_some] at h
  obtain ⟨hsides, hc⟩ := h
  rw [Bool.or_eq_true, not_or, List.isEmpty_iff, List.isEmpty_iff] at hsides
  exact ⟨hsides.1, hsides.2, (Option.some.inj hc).symm⟩

theorem bar_ofBar? {leaves : List (Leaf κ)} {bar : Leaf κ} {place : ℕ} {c : Candidate κ}
    (h : ofBar? leaves bar place = some c) : c.bar = bar := by
  obtain ⟨above, below, _, _, _, _, rfl⟩ := exists_sides_of_ofBar? h
  rfl

theorem exists_isAt_of_mem_all {leaves : List (Leaf κ)} {c : Candidate κ} (h : c ∈ all leaves) :
    ∃ place, c.IsAt leaves place := by
  obtain ⟨⟨leaf, i⟩, hmem, hc⟩ := List.mem_filterMap.1 h
  dsimp only at hc
  rw [Option.ite_none_right_eq_some] at hc
  obtain ⟨htext, hbar⟩ := hc
  obtain rfl := bar_ofBar? hbar
  exact ⟨i, List.mem_zipIdx_iff_getElem?.1 hmem, htext, hbar⟩

end Candidate

/-- Whether a fraction is that of a candidate of the row, with certain trees as sides. -/
structure IsQuotient [Coordinate κ] (inner : List (Leaf κ) → Layout κ → Prop)
    (leaves : List (Leaf κ)) (f : Composite κ) (c : Candidate κ) (num den : Layout κ) : Prop where
  outermost : c ∈ Candidate.outermost (Candidate.all leaves)
  span : f.span = c.span
  text : f.text = Layout.quotientText num.text den.text
  numerator : inner c.numerator num
  denominator : inner c.denominator den

/-! ## §3  Texts of nodes -/

namespace Page

/-- The mark behind a power, by the nodes that follow it. -/
def markBefore : List (Node κ) → List Char
  | [] => []
  | .plain _ leaf :: _ => if Label.isOperator leaf.text then [] else ['.']
  | _ :: _ => ['.']

theorem joinTexts_plain (place : ℕ) (leaf : Leaf κ) (nodes : List (Node κ)) :
    joinTexts (.plain place leaf :: nodes) = leaf.text ++ joinTexts nodes :=
  congrArg (· ++ joinTexts nodes) (List.append_nil leaf.text)

theorem joinTexts_fraction (f : Composite κ) (nodes : List (Node κ)) :
    joinTexts (.fraction f :: nodes) = f.text ++ joinTexts nodes :=
  congrArg (· ++ joinTexts nodes) (List.append_nil f.text)

theorem joinTexts_exponent (x : Composite κ) (nodes : List (Node κ)) :
    joinTexts (.exponent x :: nodes) = x.text ++ markBefore nodes ++ joinTexts nodes := by
  cases nodes with
  | nil => rfl
  | cons n nodes => cases n <;> rfl

/-- Whether a tree and nodes say the same, also to a power in front of them. -/
def Matches (l : Layout κ) (nodes : List (Node κ)) : Prop :=
  l.text = joinTexts nodes ∧ l.mark = markBefore nodes

/-- A node that carries no script is written as it is, or with brackets around a fraction. -/
def pieceText (bracketed : Bool) : Node κ → List Char
  | .fraction f => if bracketed then '(' :: f.text ++ [')'] else f.text
  | n => n.text

theorem exists_standAlone_fraction (leaves : List (Leaf κ)) (f : Composite κ)
    (next : Option (Node κ)) :
    ∃ bracketed, standAlone leaves (.fraction f) next =
      .fraction { f with text := pieceText bracketed (.fraction f) } := by
  unfold standAlone
  dsimp only
  generalize Label.bracketsFraction _ _ = bracketed
  exact ⟨bracketed, by cases bracketed <;> rfl⟩

end Page

/-! ## §4  Trees behind a row -/

namespace Page

variable [Coordinate κ]

/-- Whether a node is the base of a script, by what is behind it. -/
def startsScript (p : Page κ) (n : Node κ) : List (Node κ) → Bool
  | [] => false
  | next :: rest => p.isExponent n next && !p.operatorStartsTerm n next rest.head?

/-- Whether a tree is behind the nodes of a row, before scripts are taken up, if `inner` says which
trees are behind sides and scripts. -/
inductive LaysNodes (p : Page κ) (inner : List (Leaf κ) → Layout κ → Prop) (levels : ℕ)
    (leaves : List (Leaf κ)) : List (Node κ) → Layout κ → Prop
  | nil : LaysNodes p inner levels leaves [] .nil
  | symbol {place : ℕ} {leaf : Leaf κ} {nodes : List (Node κ)} {rest : Layout κ}
      (at_place : leaves[place]? = some leaf)
      (alone : p.startsScript (.plain place leaf) nodes = false)
      (behind : LaysNodes p inner levels leaves nodes rest) :
      LaysNodes p inner levels leaves (.plain place leaf :: nodes) (.symbol leaf rest)
  | fraction {f : Composite κ} {c : Candidate κ} {place : ℕ} {num den : Layout κ}
      {nodes : List (Node κ)}
      {rest : Layout κ} (bracketed : Bool) (isAt : c.IsAt leaves place)
      (isQuotient : IsQuotient inner leaves f c num den)
      (alone : p.startsScript (.fraction f) nodes = false)
      (behind : LaysNodes p inner levels leaves nodes rest) :
      LaysNodes p inner levels leaves (.fraction f :: nodes)
        (.fraction c.bar (c.strangers leaves place) bracketed num den rest)
  | power {base next : Node κ} {nodes : List (Node κ)} {b script rest : Layout κ} {length : ℕ}
      (front : LaysNodes p inner levels leaves [base] b) (base_text : b.text = baseText base)
      (starts : p.startsScript base (next :: nodes) = true)
      (scriptLength : p.scriptLength levels base next nodes = .ok length)
      (raised : inner (scriptLeaves leaves next (nodes.take length)) script)
      (behind : LaysNodes p inner levels leaves (nodes.drop length) rest) :
      LaysNodes p inner levels leaves (base :: next :: nodes) (.power b script rest)

/-- Whether a tree is behind a row of leaves. -/
def LaysRow (p : Page κ) : (levels : ℕ) → List (Leaf κ) → Layout κ → Prop
  | 0, _, _ => False
  | levels + 1, row, l =>
    ∃ fractions, findFractions (p.assembleRow levels) (sortLeaves row) = .ok fractions ∧
      p.LaysNodes (p.LaysRow levels) levels (sortLeaves row) (splice 0 (sortLeaves row) fractions) l

/-! ## §5  A tree behind every text -/

/-- Whether sides and scripts that are assembled have trees behind them. -/
def HasTrees (assembled : List (Leaf κ) → Except LimitPassed (List Char))
    (inner : List (Leaf κ) → Layout κ → Prop) : Prop :=
  ∀ row text, assembled row = .ok text → ∃ l, inner row l ∧ l.text = text

variable {p : Page κ} {assembled : List (Leaf κ) → Except LimitPassed (List Char)}
  {inner : List (Leaf κ) → Layout κ → Prop} {levels : ℕ} {leaves : List (Leaf κ)}
  {fractions : List (Composite κ)}

theorem exists_isQuotient (hinner : HasTrees assembled inner)
    (h : findFractions assembled leaves = .ok fractions) :
    ∀ f ∈ fractions, ∃ c place num den, c.IsAt leaves place ∧
        IsQuotient inner leaves f c num den := by
  obtain ⟨found, hfound, hsorted⟩ := exists_of_bind_eq_ok h
  cases hsorted
  intro f hf
  obtain ⟨c, hc, hassemble⟩ := exists_mem_of_mapM_eq_ok hfound f (List.mem_mergeSort.1 hf)
  obtain ⟨place, hat⟩ := Candidate.exists_isAt_of_mem_all (Candidate.mem_of_mem_outermost hc)
  obtain ⟨numText, hnum, hassemble⟩ := exists_of_bind_eq_ok hassemble
  obtain ⟨denText, hden, hassemble⟩ := exists_of_bind_eq_ok hassemble
  obtain ⟨num, hinnerNum, rfl⟩ := hinner _ _ hnum
  obtain ⟨den, hinnerDen, rfl⟩ := hinner _ _ hden
  cases hassemble
  exact ⟨c, place, num, den, hat, hc, rfl, rfl, hinnerNum, hinnerDen⟩

/-- A piece in front of nodes: there is a tree with it in front, with brackets as wished. -/
theorem exists_laysNodes_piece (hinner : HasTrees assembled inner)
    (hfractions : findFractions assembled leaves = .ok fractions) {n : Node κ}
    (hn : n.IsPiece leaves fractions) {nodes : List (Node κ)}
    (halone : p.startsScript n nodes = false) {rest : Layout κ}
    (hrest : p.LaysNodes inner levels leaves nodes rest) (bracketed : Bool) :
    ∃ l, p.LaysNodes inner levels leaves (n :: nodes) l ∧ l.mark = markBefore (n :: nodes) ∧
      l.text = pieceText bracketed n ++ rest.text := by
  cases n with
  | plain place leaf => exact ⟨_, .symbol hn halone hrest, rfl, rfl⟩
  | fraction f =>
      obtain ⟨c, place, num, den, hat, hquot⟩ := exists_isQuotient hinner hfractions f hn
      refine ⟨_, .fraction bracketed hat hquot halone hrest, rfl, ?_⟩
      rw [Layout.text, ← hquot.text]
      rfl
  | exponent x => cases hn

/-- A piece that carries no script, in front of nodes that have a tree. -/
theorem exists_matches_standAlone (hinner : HasTrees assembled inner)
    (hfractions : findFractions assembled leaves = .ok fractions) {n : Node κ}
    (hn : n.IsPiece leaves fractions) {nodes result : List (Node κ)}
    (halone : p.startsScript n nodes = false)
    (hrest : ∃ rest, p.LaysNodes inner levels leaves nodes rest ∧ Matches rest result)
    (next : Option (Node κ)) :
    ∃ l, p.LaysNodes inner levels leaves (n :: nodes) l ∧
        Matches l (standAlone leaves n next :: result) := by
  obtain ⟨rest, hlays, htext, _⟩ := hrest
  cases n with
  | plain place leaf =>
      refine ⟨_, .symbol hn halone hlays, ?_, rfl⟩
      exact (congrArg (leaf.text ++ ·) htext).trans (joinTexts_plain place leaf result).symm
  | fraction f =>
      obtain ⟨bracketed, hstands⟩ := exists_standAlone_fraction leaves f next
      obtain ⟨l, hl, hmark, hltext⟩ :=
        exists_laysNodes_piece hinner hfractions hn halone hlays bracketed
      rw [hstands]
      refine ⟨l, hl, ?_, hmark⟩
      rw [hltext, htext, joinTexts_fraction]
  | exponent x => cases hn

/-- A base with its script, in front of nodes that have a tree. -/
theorem exists_matches_exponent (hinner : HasTrees assembled inner)
    (hfractions : findFractions assembled leaves = .ok fractions) {base next : Node κ}
    (hbase : base.IsPiece leaves fractions) {nodes : List (Node κ)}
    (hstarts : p.startsScript base (next :: nodes) = true) {length : ℕ}
    (hlength : p.scriptLength levels base next nodes = .ok length) {x : Composite κ}
    (hx : assembleExponent assembled leaves base next (nodes.take length) = .ok x)
    {result : List (Node κ)}
    (hrest : ∃ rest, p.LaysNodes inner levels leaves (nodes.drop length) rest ∧
      Matches rest result) :
    ∃ l, p.LaysNodes inner levels leaves (base :: next :: nodes) l ∧
        Matches l (.exponent x :: result) := by
  obtain ⟨rest, hlays, htext, hmark⟩ := hrest
  -- a fraction is in brackets as a base, whatever stands beside it
  have hnil : p.LaysNodes inner levels leaves [] .nil := .nil
  obtain ⟨b, hb, _, hbtext⟩ := exists_laysNodes_piece hinner hfractions hbase rfl hnil true
  obtain ⟨scriptText, hscript, hx⟩ := exists_of_bind_eq_ok hx
  obtain ⟨script, hraised, rfl⟩ := hinner _ _ hscript
  cases hx
  have hbaseText : b.text = baseText base := by
    rw [hbtext, Layout.text, List.append_nil]
    cases base <;> rfl
  refine ⟨.power b script rest, .power hb hbaseText hstarts hlength hraised hlays, ?_, rfl⟩
  rw [joinTexts_exponent, Layout.text, hbaseText, hmark, htext]

theorem exists_laysNodes (hinner : HasTrees assembled inner)
    (hfractions : findFractions assembled leaves = .ok fractions) {nodes result : List (Node κ)}
    (hpieces : ∀ n ∈ nodes, n.IsPiece leaves fractions)
    (h : p.attachScripts assembled levels leaves nodes = .ok result) :
    ∃ l, p.LaysNodes inner levels leaves nodes l ∧ Matches l result := by
  fun_induction attachScripts p assembled levels leaves nodes generalizing result with
  | case1 =>
      cases h
      exact ⟨.nil, .nil, rfl, rfl⟩
  | case2 n =>
      cases h
      exact exists_matches_standAlone hinner hfractions (hpieces n (List.mem_cons_self ..)) rfl
        ⟨.nil, .nil, rfl, rfl⟩ none
  | case3 base next nodes hstarts ih =>
      obtain ⟨length, hlength, h⟩ := exists_of_bind_eq_ok h
      obtain ⟨x, hx, h⟩ := exists_of_bind_eq_ok h
      obtain ⟨more, hmore, h⟩ := exists_of_bind_eq_ok h
      cases h
      have hbehind : ∀ n ∈ nodes.drop length, n.IsPiece leaves fractions := fun n hn =>
        hpieces n (List.mem_cons_of_mem _ (List.mem_cons_of_mem _ (List.mem_of_mem_drop hn)))
      exact exists_matches_exponent hinner hfractions (hpieces base (List.mem_cons_self ..))
        hstarts hlength hx (ih length hbehind hmore)
  | case4 n next nodes halone ih =>
      obtain ⟨more, hmore, h⟩ := exists_of_bind_eq_ok h
      cases h
      obtain ⟨hn, hbehind⟩ := List.forall_mem_cons.1 hpieces
      have hstands : p.startsScript n (next :: nodes) = false := Bool.eq_false_iff.2 halone
      exact exists_matches_standAlone hinner hfractions hn hstands (ih hbehind hmore) (some next)

/-- **Trees.** Behind every text that a row is assembled to there is a tree. -/
theorem exists_laysRow (p : Page κ) (levels : ℕ) :
    HasTrees (p.assembleRow levels) (p.LaysRow levels) := by
  induction levels with
  | zero =>
      intro row text h
      cases h
  | succ levels ih =>
      intro row text h
      rw [assembleRow] at h
      obtain ⟨fractions, hfractions, h⟩ := exists_of_bind_eq_ok h
      obtain ⟨nodes, hnodes, h⟩ := exists_of_bind_eq_ok h
      cases h
      obtain ⟨l, hl, htext, _⟩ := exists_laysNodes ih hfractions (isPiece_of_mem_splice rfl) hnodes
      exact ⟨l, ⟨fractions, hfractions, hl⟩, htext⟩

end Page

/-- On a page whose detections come from left to right the first step changes nothing. -/
theorem assemble_of_sorted [Coordinate κ] {p : Page κ} {detections : List (Detection κ)}
    (h : detections.Pairwise fun a b => Coordinate.precedes a.box.left b.box.left = true) :
    assemble p detections = (do
      let leaves := detections.map (.ofDetection p.geometry)
      let inner := p.assembleRow p.geometry.maxDepth
      let fractions ← findFractions inner leaves
      let nodes ← p.attachScripts inner p.geometry.maxDepth leaves (splice 0 leaves fractions)
      return Page.joinTexts nodes) := by
  have hsort : Page.sortLeaves (detections.map (.ofDetection p.geometry)) =
      detections.map (.ofDetection p.geometry) := List.mergeSort_of_pairwise (List.pairwise_map.2 h)
  rw [assemble, Page.assembleRow, hsort]

/-- The page as it is read without settings. -/
def standardPage : Page Float := ⟨.standard, .reference⟩

def symbolAt (label : String) (x y width height : Float) : Detection Float :=
  ⟨label, 1, ⟨x, y, width, height⟩⟩

end InkAlgebra

import Mathlib
import InkAlgebra.Proofs.Layout.Products

/-!
# How deep a layout nests

The sides of a fraction, scripts, and the search for the end of a script inside of a script all go
down by one level, and the page says how many levels there are. Being out of levels is the one way
to fail, and nothing else depends on their number: what a layout yields with few levels it yields
with more.

It never needs more levels than there are leaves. Each step down leaves something behind: a side of
a fraction leaves its bar, a script its base, and the search inside of a script the node that it
starts at. So the leaves of a row bound the sides and scripts below it, and its nodes bound the
search.

§1 is results under a limit, §2 that levels only limit, §3 how many levels are enough, §4 whole
pages.
-/

namespace InkAlgebra

/-! ## §1  Results under a limit -/

/-- Whether a result is the failure of a limit, or the very success that another result is. -/
def UpTo {β : Type} (e : LimitPassed) (limited free : Except LimitPassed β) : Prop :=
  limited = .error e ∨ ∃ v, limited = .ok v ∧ free = .ok v

namespace UpTo

variable {β γ : Type} {e : LimitPassed}

theorem ok (v : β) : UpTo e (.ok v) (.ok v) := .inr ⟨v, rfl, rfl⟩

theorem bind {x y : Except LimitPassed β} {f g : β → Except LimitPassed γ} (h : UpTo e x y)
    (hnext : ∀ v, UpTo e (f v) (g v)) : UpTo e (x >>= f) (y >>= g) := by
  rcases h with rfl | ⟨v, rfl, rfl⟩
  · exact .inl rfl
  · exact hnext v

theorem mapM {step step' : β → Except LimitPassed γ} (h : ∀ x, UpTo e (step x) (step' x))
    (xs : List β) :
    UpTo e (xs.mapM step) (xs.mapM step') := by
  induction xs with
  | nil => exact ok []
  | cons x rest ih =>
      rw [List.mapM_cons, List.mapM_cons]
      exact (h x).bind fun y => ih.bind fun ys => ok (y :: ys)

theorem eq_ok {x y : Except LimitPassed β} (h : UpTo e x y) {v : β} (hx : x = .ok v) :
    y = .ok v := by
  rcases h with herror | ⟨w, hw, hy⟩
  · rw [hx] at herror
    cases herror
  · rw [hx] at hw
    cases hw
    exact hy

end UpTo

variable {κ : Type} [Coordinate κ]

/-! ## §2  Levels only limit -/

/-- The page with another number of levels. -/
def Page.withMaxDepth (p : Page κ) (maxDepth : ℕ) : Page κ :=
  { p with geometry := { p.geometry with maxDepth } }

namespace Candidate

variable {e : LimitPassed} {inner inner' : List (Leaf κ) → Except LimitPassed (List Char)}

theorem upTo_assemble (hinner : ∀ row, UpTo e (inner row) (inner' row)) (leaves : List (Leaf κ))
    (c : Candidate κ) :
    UpTo e (c.assemble inner leaves) (c.assemble inner' leaves) :=
  (hinner c.numerator).bind fun _ => (hinner c.denominator).bind fun _ => .ok _

theorem upTo_findFractions (hinner : ∀ row, UpTo e (inner row) (inner' row))
    (leaves : List (Leaf κ)) :
    UpTo e (findFractions inner leaves) (findFractions inner' leaves) :=
  (UpTo.mapM (upTo_assemble hinner leaves) _).bind fun _ => .ok _

end Candidate

namespace Page

variable {p : Page κ} {e : LimitPassed}
  {inner inner' : List (Leaf κ) → Except LimitPassed (List Char)} {levels levels' : ℕ}

/-- The search for the end of a script does not ask for the number of levels of the page. -/
theorem upTo_scriptLength (p : Page κ) (maxDepth : ℕ) (hle : levels ≤ levels')
    (base anchor : Node κ) (behind : List (Node κ)) :
    UpTo p.tooDeep (p.scriptLength levels base anchor behind)
      ((p.withMaxDepth maxDepth).scriptLength levels' base anchor behind) := by
  fun_induction scriptLength p levels base anchor behind generalizing levels' with
  | case1 => exact .inl rfl
  | case2 base anchor levels =>
      obtain ⟨levels', rfl⟩ := Nat.exists_eq_succ_of_ne_zero (Nat.ne_zero_of_lt hle)
      rw [scriptLength]
      exact .ok 0
  | case3 base anchor levels n rest hends =>
      obtain ⟨levels', rfl⟩ := Nat.exists_eq_succ_of_ne_zero (Nat.ne_zero_of_lt hle)
      have hends' : (p.withMaxDepth maxDepth).scriptEndsBefore base anchor n rest.head? = true :=
        hends
      rw [scriptLength, if_pos hends']
      exact .ok 0
  | case4 base anchor levels n rest hgoes hstarts ihNested ihMore =>
      obtain ⟨levels', rfl⟩ := Nat.exists_eq_succ_of_ne_zero (Nat.ne_zero_of_lt hle)
      have hgoes' : ¬ (p.withMaxDepth maxDepth).scriptEndsBefore base anchor n rest.head? = true :=
        hgoes
      have hstarts' : (p.withMaxDepth maxDepth).isExponent anchor n = true := hstarts
      rw [scriptLength, if_neg hgoes', if_pos hstarts']
      exact (ihNested (by omega)).bind fun nested => (ihMore nested (by omega)).bind fun _ => .ok _
  | case5 base anchor levels n rest hgoes halone ih =>
      obtain ⟨levels', rfl⟩ := Nat.exists_eq_succ_of_ne_zero (Nat.ne_zero_of_lt hle)
      have hgoes' : ¬ (p.withMaxDepth maxDepth).scriptEndsBefore base anchor n rest.head? = true :=
        hgoes
      have halone' : ¬ (p.withMaxDepth maxDepth).isExponent anchor n = true := halone
      rw [scriptLength, if_neg hgoes', if_neg halone']
      exact (ih (by omega)).bind fun _ => .ok _

theorem upTo_assembleExponent (hinner : ∀ row, UpTo e (inner row) (inner' row))
    (leaves : List (Leaf κ)) (base first : Node κ) (more : List (Node κ)) :
    UpTo e (assembleExponent inner leaves base first more)
        (assembleExponent inner' leaves base first more) :=
  (hinner _).bind fun _ => .ok _

theorem upTo_attachScripts (p : Page κ) (maxDepth : ℕ)
    (hinner : ∀ row, UpTo p.tooDeep (inner row) (inner' row)) (hle : levels ≤ levels')
    (leaves : List (Leaf κ)) (nodes : List (Node κ)) :
    UpTo p.tooDeep (p.attachScripts inner levels leaves nodes)
      ((p.withMaxDepth maxDepth).attachScripts inner' levels' leaves nodes) := by
  fun_induction attachScripts p inner levels leaves nodes with
  | case1 =>
      rw [attachScripts]
      exact .ok []
  | case2 n =>
      rw [attachScripts]
      exact .ok _
  | case3 n next rest hstarts ih =>
      have hstarts' : ((p.withMaxDepth maxDepth).isExponent n next &&
          !(p.withMaxDepth maxDepth).operatorStartsTerm n next rest.head?) = true := hstarts
      rw [attachScripts, if_pos hstarts']
      refine (upTo_scriptLength p maxDepth hle n next rest).bind fun length => ?_
      exact (upTo_assembleExponent hinner leaves n next _).bind fun _ =>
        (ih length).bind fun _ => .ok _
  | case4 n next rest halone ih =>
      have halone' : ¬ ((p.withMaxDepth maxDepth).isExponent n next &&
          !(p.withMaxDepth maxDepth).operatorStartsTerm n next rest.head?) = true := halone
      rw [attachScripts, if_neg halone']
      exact ih.bind fun _ => .ok _

/-- **Levels only limit.** A row runs out of levels, or its text is the same on every page that
differs in the number of levels only, with as many levels or more left. -/
theorem upTo_assembleRow (p : Page κ) (maxDepth : ℕ) (hle : levels ≤ levels')
    (row : List (Leaf κ)) :
    UpTo p.tooDeep (p.assembleRow levels row)
        ((p.withMaxDepth maxDepth).assembleRow levels' row) := by
  induction levels generalizing levels' row with
  | zero => exact .inl rfl
  | succ levels ih =>
      obtain ⟨levels', rfl⟩ := Nat.exists_eq_succ_of_ne_zero (Nat.ne_zero_of_lt hle)
      have hinner : ∀ row, UpTo p.tooDeep (p.assembleRow levels row)
          ((p.withMaxDepth maxDepth).assembleRow levels' row) := ih (Nat.le_of_succ_le_succ hle)
      rw [assembleRow, assembleRow]
      refine (Candidate.upTo_findFractions hinner _).bind fun fractions => ?_
      refine (upTo_attachScripts p maxDepth hinner (Nat.le_of_succ_le_succ hle) _ _).bind
        fun nodes => ?_
      exact .ok (joinTexts nodes)

end Page

/-! ## §3  Enough levels -/

namespace Candidate

variable {leaves : List (Leaf κ)} {c : Candidate κ} {place : ℕ}

/-- A side leaves out its bar. -/
theorem length_sideOf_lt {bar : Leaf κ} (h : leaves[place]? = some bar) (onSide : Leaf κ → Bool) :
    (sideOf bar place onSide leaves).length < leaves.length := by
  rw [← leaves.length_zipIdx, sideOf, List.length_filter_lt_length_iff_exists]
  refine ⟨(bar, place), List.mem_zipIdx_iff_getElem?.2 h, ?_⟩
  simp

theorem IsAt.length_sides_lt (h : c.IsAt leaves place) :
    c.numerator.length < leaves.length ∧ c.denominator.length < leaves.length := by
  obtain ⟨_, _, rfl, rfl, _, _, hc⟩ := exists_sides_of_ofBar? h.ofBar
  rw [hc, List.length_map, List.length_map]
  exact ⟨length_sideOf_lt h.bar_at _, length_sideOf_lt h.bar_at _⟩

end Candidate

/-- Whether rows are assembled that have no more leaves than there are levels. -/
def AssemblesUpTo (inner : List (Leaf κ) → Except LimitPassed (List Char)) (levels : ℕ) : Prop :=
  0 < levels → ∀ row : List (Leaf κ), row.length ≤ levels → ∃ text, inner row = .ok text

variable {inner : List (Leaf κ) → Except LimitPassed (List Char)} {levels : ℕ}
  {leaves : List (Leaf κ)}

theorem AssemblesUpTo.exists_findFractions (hinner : AssemblesUpTo inner levels)
    (hlength : leaves.length ≤ levels + 1) :
    ∃ fractions, findFractions inner leaves = .ok fractions := by
  have hassemble : ∀ c ∈ Candidate.outermost (Candidate.all leaves), ∃ f,
      c.assemble inner leaves = .ok f := by
    intro c hc
    obtain ⟨place, hat⟩ := Candidate.exists_isAt_of_mem_all (Candidate.mem_of_mem_outermost hc)
    obtain ⟨hnumLength, hdenLength⟩ := hat.length_sides_lt
    have hpos := List.length_pos_iff.2 hat.numerator_ne_nil
    obtain ⟨num, hnum⟩ := hinner (by omega) c.numerator (by omega)
    obtain ⟨den, hden⟩ := hinner (by omega) c.denominator (by omega)
    obtain ⟨f, hf, _⟩ := Candidate.exists_assemble leaves hnum hden
    exact ⟨f, hf⟩
  exact exists_bind_eq_ok (exists_mapM_eq_ok hassemble) fun _ _ => ⟨_, rfl⟩

omit [Coordinate κ] in
/-- A row has no more nodes than leaves. -/
theorem length_splice_le (place : ℕ) (leaves : List (Leaf κ)) (fractions : List (Composite κ)) :
    (splice place leaves fractions).length ≤ leaves.length := by
  fun_induction splice place leaves fractions with
  | case1 => exact le_rfl
  | case2 leaf rest fractions f later _ ih =>
      rw [List.length_drop] at ih
      rw [List.length_cons, List.length_cons]
      omega
  | case3 i leaf rest fractions f later _ _ ih => exact Nat.succ_le_succ ih
  | case4 i leaf rest fractions _ ih => exact Nat.succ_le_succ ih

namespace Page

variable {p : Page κ}

/-- The search for the end of a script goes down no further than there are nodes behind it. -/
theorem exists_scriptLength (base anchor : Node κ) {behind : List (Node κ)}
    (h : behind.length < levels) :
    ∃ length, p.scriptLength levels base anchor behind = .ok length := by
  fun_induction scriptLength p levels base anchor behind with
  | case1 => exact absurd h (Nat.not_lt_zero _)
  | case2 => exact ⟨0, rfl⟩
  | case3 => exact ⟨0, rfl⟩
  | case4 base anchor levels n rest _ _ ihNested ihMore =>
      rw [List.length_cons] at h
      refine exists_bind_eq_ok (ihNested (by omega)) fun nested _ => ?_
      exact exists_bind_eq_ok (ihMore nested (by rw [List.length_drop]; omega)) fun _ _ => ⟨_, rfl⟩
  | case5 base anchor levels n rest _ _ ih =>
      rw [List.length_cons] at h
      exact exists_bind_eq_ok (ih (by omega)) fun _ _ => ⟨_, rfl⟩

omit [Coordinate κ] in
/-- A script leaves out its base. -/
theorem length_scriptLeaves_lt {place : ℕ} {base next : Node κ} {nodes : List (Node κ)}
    (htiles : Tiles place (base :: next :: nodes)) (hleaves : 0 < leaves.length) (length : ℕ) :
    (scriptLeaves leaves next (nodes.take length)).length < leaves.length := by
  have hstart : 0 < next.span.start := by
    rw [htiles.2.1]
    exact Nat.zero_lt_of_lt base.span.start_lt_stop
  have hlast := (htiles.2.take (length + 1)).le_last.1
  have hdrop : (scriptLeaves leaves next (nodes.take length)).length ≤
      (leaves.drop (next.span.join ((nodes.take length).getLast?.getD next).span).start).length :=
    List.length_take_le' ..
  rw [List.length_drop, Span.start_join] at hdrop
  omega

theorem exists_attachScripts (hinner : AssemblesUpTo inner levels)
    (hlength : leaves.length ≤ levels + 1) {nodes : List (Node κ)}
    (hnodes : nodes.length ≤ leaves.length) {place : ℕ} (htiles : Tiles place nodes) :
    ∃ result, p.attachScripts inner levels leaves nodes = .ok result := by
  fun_induction attachScripts p inner levels leaves nodes generalizing place with
  | case1 => exact ⟨[], rfl⟩
  | case2 n => exact ⟨_, rfl⟩
  | case3 base next rest hstarts ih =>
      rw [List.length_cons, List.length_cons] at hnodes
      have hbehind : rest.length < levels := by omega
      refine exists_bind_eq_ok (exists_scriptLength base next hbehind) fun length _ => ?_
      have hshort : (scriptLeaves leaves next (rest.take length)).length < leaves.length :=
        length_scriptLeaves_lt htiles (by omega) length
      have hscript : ∃ text, inner (scriptLeaves leaves next (rest.take length)) = .ok text :=
        hinner (by omega) _ (by omega)
      have hexponent : ∃ x, assembleExponent inner leaves base next (rest.take length) = .ok x :=
        exists_bind_eq_ok hscript fun _ _ => ⟨_, rfl⟩
      refine exists_bind_eq_ok hexponent fun _ _ => ?_
      obtain ⟨place', hdrop⟩ := htiles.2.2.drop length
      exact exists_bind_eq_ok (ih length (by rw [List.length_drop]; omega) hdrop) fun _ _ =>
        ⟨_, rfl⟩
  | case4 n next rest _ ih =>
      exact exists_bind_eq_ok (ih (Nat.le_of_succ_le hnodes) htiles.2) fun _ _ => ⟨_, rfl⟩

/-- **Enough levels.** A row with no more leaves than there are levels is assembled. -/
theorem assemblesUpTo_assembleRow (p : Page κ) (levels : ℕ) :
    AssemblesUpTo (p.assembleRow levels) levels := by
  induction levels with
  | zero => exact fun hpos => absurd hpos (Nat.lt_irrefl 0)
  | succ levels ih =>
      intro _ row hlength
      have hsorted : (sortLeaves row).length ≤ levels + 1 :=
        (sortLeaves_perm row).length_eq.trans_le hlength
      rw [assembleRow]
      refine exists_bind_eq_ok (ih.exists_findFractions hsorted) fun fractions _ => ?_
      have hnodes := length_splice_le 0 (sortLeaves row) fractions
      exact exists_bind_eq_ok (exists_attachScripts ih hsorted hnodes (tiles_splice ..)) fun _ _ =>
        ⟨_, rfl⟩

end Page

/-! ## §4  Whole pages -/

/-- **Depth.** A page is assembled, or it fails at the first level too many. It is assembled if it
has as many levels as there are detections, and then the last of these levels is the deepest that is
ever entered: with no level below it the text is the same. -/
theorem assemble_ok_or_tooDeep (p : Page κ) (detections : List (Detection κ)) :
    (assemble p detections = .error ⟨p.geometry.maxDepth + 1, p.geometry.maxDepth⟩ ∨
        ∃ text, assemble p detections = .ok text) ∧
      (detections.length ≤ p.geometry.maxDepth + 1 →
        ∃ text, assemble p detections = .ok text ∧
          assemble (p.withMaxDepth (detections.length - 1)) detections = .ok text) := by
  constructor
  · rcases Page.upTo_assembleRow p p.geometry.maxDepth le_rfl
        (detections.map (.ofDetection p.geometry)) with
      herror | ⟨text, htext, _⟩
    · exact .inl herror
    · exact .inr ⟨text, htext⟩
  · intro hlength
    let shallow := p.withMaxDepth (detections.length - 1)
    let row := detections.map (Leaf.ofDetection p.geometry)
    have hrow : row.length ≤ detections.length - 1 + 1 := by
      rw [List.length_map]
      omega
    obtain ⟨text, htext⟩ := shallow.assemblesUpTo_assembleRow _ (Nat.succ_pos _) row hrow
    have hdeep : UpTo shallow.tooDeep (shallow.assembleRow (detections.length - 1 + 1) row)
        (p.assembleRow (p.geometry.maxDepth + 1) row) :=
      shallow.upTo_assembleRow p.geometry.maxDepth (by omega) row
    exact ⟨text, hdeep.eq_ok htext, htext⟩

/-- A power with a power for its script. -/
def scriptTower : List (Detection Float) :=
  [symbolAt "x" 0.3 0.5 0.1 0.1, symbolAt "2" 0.38 0.48 0.03 0.08,
    symbolAt "3" 0.41 0.475 0.012 0.03]

/-- Three symbols need three levels, and no fewer. -/
theorem scriptTower_assemble_ok :
    (scriptTower.length ≤ (standardPage.withMaxDepth 2).geometry.maxDepth + 1 ∧
      ∃ text, assemble (standardPage.withMaxDepth 2) scriptTower = .ok text ∧
        assemble ((standardPage.withMaxDepth 2).withMaxDepth (scriptTower.length - 1))
          scriptTower = .ok text) ∧
      assemble (standardPage.withMaxDepth 1) scriptTower = .error ⟨2, 1⟩ := by
  have hlength : scriptTower.length ≤
      (standardPage.withMaxDepth 2).geometry.maxDepth + 1 := by decide
  refine ⟨⟨hlength, (assemble_ok_or_tooDeep (standardPage.withMaxDepth 2) scriptTower).2 hlength⟩,
    ?_⟩
  rw [assemble_of_sorted (by decide +kernel)]
  decide +kernel

end InkAlgebra

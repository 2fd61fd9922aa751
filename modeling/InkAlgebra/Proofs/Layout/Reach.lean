import Mathlib
import InkAlgebra.Proofs.Layout.Depth

/-!
# How far a script reaches

The end of a script is looked for place by place. A script of the script is looked for on the way,
from a base of its own, and moves the end on while the anchor stays behind. Still the end is a place
of the row and not in front of the start, no `=` is taken in, and nothing further than two places
behind the end is looked at: whatever else is written on the right, the script ends where it did.

§1 is the search by places, §2 what every search keeps, §3 the end of a script in a row, with a row
to try it on.
-/

namespace InkAlgebra

variable {κ : Type} [Coordinate κ]

namespace Page

/-! ## §1  The search by places -/

/-- How the end of a script is looked for in a row. The script has come to the place `last`, the
anchor is the place of the last node on its own line, and the search leads to the place `stop`. -/
inductive ScansTo (p : Page κ) (row : List (Node κ)) :
    (levels : ℕ) → (base : Node κ) → (anchor last stop : ℕ) → Prop
  | endOfRow {levels anchor last : ℕ} {base : Node κ} (behind : row[last + 1]? = none) :
      ScansTo p row (levels + 1) base anchor last last
  | ends {levels anchor last : ℕ} {base a n : Node κ} (at_anchor : row[anchor]? = some a)
      (behind : row[last + 1]? = some n)
      (ends : p.scriptEndsBefore base a n row[last + 2]? = true) :
      ScansTo p row (levels + 1) base anchor last last
  | stepsOver {levels anchor last nested stop : ℕ} {base a n : Node κ}
      (at_anchor : row[anchor]? = some a)
      (behind : row[last + 1]? = some n) (goes : p.scriptEndsBefore base a n row[last + 2]? = false)
      (carries : p.isExponent a n = true)
      (script : ScansTo p row levels a (last + 1) (last + 1) nested)
      (more : ScansTo p row (levels + 1) base anchor nested stop) :
      ScansTo p row (levels + 1) base anchor last stop
  | takesUp {levels anchor last stop : ℕ} {base a n : Node κ} (at_anchor : row[anchor]? = some a)
      (behind : row[last + 1]? = some n) (goes : p.scriptEndsBefore base a n row[last + 2]? = false)
      (alone : p.isExponent a n = false)
      (more : ScansTo p row (levels + 1) base (last + 1) (last + 1) stop) :
      ScansTo p row (levels + 1) base anchor last stop

variable {p : Page κ} {row other : List (Node κ)}
  {levels anchor last stop length : ℕ} {base a n : Node κ}

omit [Coordinate κ] in
theorem drop_drop_nested (row : List (Node κ)) (last nested : ℕ) :
    (row.drop (last + 2)).drop nested = row.drop (last + 1 + nested + 1) := by
  rw [List.drop_drop]
  congr 1
  omega

/-- One step of the search, by places. -/
theorem scriptLength_drop (hn : row[last + 1]? = some n) :
    p.scriptLength (levels + 1) base a (row.drop (last + 1)) =
      if p.scriptEndsBefore base a n row[last + 2]? then .ok 0
      else if p.isExponent a n then do
        let nested ← p.scriptLength levels a n (row.drop (last + 2))
        let more ← p.scriptLength (levels + 1) base a (row.drop (last + 1 + nested + 1))
        return 1 + nested + more
      else do
        return 1 + (← p.scriptLength (levels + 1) base n (row.drop (last + 2))) := by
  obtain ⟨hlt, rfl⟩ := List.getElem?_eq_some_iff.1 hn
  rw [List.drop_eq_getElem_cons hlt, scriptLength, List.head?_drop]
  simp only [drop_drop_nested]

theorem ScansTo.of_scriptLength {behind : List (Node κ)}
    (h : p.scriptLength levels base a behind = .ok length) (hanchor : row[anchor]? = some a)
    (hbehind : row.drop (last + 1) = behind) :
    p.ScansTo row levels base anchor last (last + length) := by
  fun_induction scriptLength p levels base a behind generalizing anchor last length with
  | case1 => cases h
  | case2 =>
      obtain rfl := Except.ok.inj h
      exact .endOfRow (List.getElem?_eq_none (List.drop_eq_nil_iff.1 hbehind))
  | case3 base a levels n rest hends =>
      obtain rfl := Except.ok.inj h
      obtain ⟨hn, rfl⟩ := getElem?_of_drop_eq_cons hbehind
      rw [List.head?_drop] at hends
      exact .ends hanchor hn hends
  | case4 base a levels n rest hgoes hcarries ihNested ihMore =>
      obtain ⟨nested, hnested, h⟩ := exists_of_bind_eq_ok h
      obtain ⟨more, hmore, h⟩ := exists_of_bind_eq_ok h
      obtain rfl := Except.ok.inj h
      obtain ⟨hn, rfl⟩ := getElem?_of_drop_eq_cons hbehind
      rw [List.head?_drop, Bool.not_eq_true] at hgoes
      have hscript := ihNested hnested hn rfl
      have hbeyond := ihMore nested hmore hanchor (drop_drop_nested row last nested).symm
      rw [Nat.add_assoc 1, ← Nat.add_assoc, ← Nat.add_assoc]
      exact .stepsOver hanchor hn hgoes hcarries hscript hbeyond
  | case5 base a levels n rest hgoes halone ih =>
      obtain ⟨more, hmore, h⟩ := exists_of_bind_eq_ok h
      obtain rfl := Except.ok.inj h
      obtain ⟨hn, rfl⟩ := getElem?_of_drop_eq_cons hbehind
      rw [List.head?_drop, Bool.not_eq_true] at hgoes
      rw [← Nat.add_assoc]
      exact .takesUp hanchor hn hgoes (Bool.eq_false_iff.2 halone) (ih hmore hn rfl)

theorem ScansTo.exists_length (h : p.ScansTo row levels base anchor last stop)
    (hanchor : row[anchor]? = some a) :
    ∃ length, p.scriptLength levels base a (row.drop (last + 1)) = .ok length ∧
        last + length = stop := by
  induction h generalizing a with
  | endOfRow behind =>
      rw [List.drop_eq_nil_of_le (List.getElem?_eq_none_iff.1 behind), scriptLength]
      exact ⟨0, rfl, rfl⟩
  | ends at_anchor behind ends =>
      obtain rfl := Option.some.inj (at_anchor.symm.trans hanchor)
      rw [scriptLength_drop behind, if_pos ends]
      exact ⟨0, rfl, rfl⟩
  | stepsOver at_anchor behind goes carries _ _ ihScript ihMore =>
      obtain rfl := Option.some.inj (at_anchor.symm.trans hanchor)
      obtain ⟨nested, hnested, rfl⟩ := ihScript behind
      obtain ⟨more, hmore, rfl⟩ := ihMore at_anchor
      refine ⟨1 + nested + more, ?_, by omega⟩
      rw [scriptLength_drop behind, if_neg (Bool.eq_false_iff.1 goes), if_pos carries, hnested]
      exact congrArg (· >>= fun more => .ok (1 + nested + more)) hmore
  | takesUp at_anchor behind goes alone _ ih =>
      obtain rfl := Option.some.inj (at_anchor.symm.trans hanchor)
      obtain ⟨more, hmore, rfl⟩ := ih behind
      refine ⟨1 + more, ?_, by omega⟩
      rw [scriptLength_drop behind, if_neg (Bool.eq_false_iff.1 goes),
        if_neg (Bool.eq_false_iff.1 alone), hmore]
      rfl

/-! ## §2  What every search keeps -/

theorem ScansTo.last_le_stop (h : p.ScansTo row levels base anchor last stop) : last ≤ stop := by
  induction h with
  | endOfRow => exact le_rfl
  | ends => exact le_rfl
  | stepsOver _ _ _ _ _ _ ihScript ihMore => exact (Nat.le_of_succ_le ihScript).trans ihMore
  | takesUp _ _ _ _ _ ih => exact Nat.le_of_succ_le ih

/-- An equals sign ends every script. -/
theorem text_ne_equals_of_goes {after : Option (Node κ)}
    (h : p.scriptEndsBefore base a n after = false) :
    n.text ≠ ['='] := by
  intro htext
  simp [scriptEndsBefore, htext] at h

/-- Nothing is taken up that ends the script it is looked at for, be it that of the base or one
inside it. -/
theorem ScansTo.goes_at (h : p.ScansTo row levels base anchor last stop) :
    ∀ place, last < place → place ≤ stop →
      ∃ base' a m, row[place]? = some m ∧ p.scriptEndsBefore base' a m row[place + 1]? = false := by
  induction h with
  | endOfRow => exact fun place hlast hstop => absurd hstop (Nat.not_le_of_lt hlast)
  | ends => exact fun place hlast hstop => absurd hstop (Nat.not_le_of_lt hlast)
  | @stepsOver _ _ _ nested _ _ _ _ _ behind goes _ _ _ ihScript ihMore =>
      intro place hlast hstop
      rcases Nat.lt_or_ge nested place with hbeyond | hwithin
      · exact ihMore place hbeyond hstop
      rcases Nat.eq_or_lt_of_le (Nat.succ_le_of_lt hlast) with rfl | hinside
      · exact ⟨_, _, _, behind, goes⟩
      · exact ihScript place hinside hwithin
  | takesUp _ behind goes _ _ ih =>
      intro place hlast hstop
      rcases Nat.eq_or_lt_of_le (Nat.succ_le_of_lt hlast) with rfl | hbeyond
      · exact ⟨_, _, _, behind, goes⟩
      · exact ih place hbeyond hstop

theorem ScansTo.text_ne_equals (h : p.ScansTo row levels base anchor last stop) {place : ℕ}
    (hlast : last < place) (hstop : place ≤ stop) (hn : row[place]? = some n) : n.text ≠ ['='] := by
  obtain ⟨_, _, m, hm, hgoes⟩ := h.goes_at place hlast hstop
  obtain rfl := Option.some.inj (hm.symm.trans hn)
  exact text_ne_equals_of_goes hgoes

/-- Whether a script has to end in a place: nothing is behind it, or a node that ends the script,
seen from some node of the script. -/
def EndsAt (p : Page κ) (row : List (Node κ)) (base : Node κ) (start stop : ℕ) : Prop :=
  row[stop + 1]? = none ∨
    ∃ anchor a n, start ≤ anchor ∧ anchor ≤ stop ∧ row[anchor]? = some a ∧ row[stop + 1]? = some n ∧
      p.scriptEndsBefore base a n row[stop + 2]? = true

theorem EndsAt.mono {start start' : ℕ} (h : p.EndsAt row base start' stop) (hle : start ≤ start') :
    p.EndsAt row base start stop := by
  rcases h with hnone | ⟨anchor, a, n, hstart, hends⟩
  · exact .inl hnone
  · exact .inr ⟨anchor, a, n, hle.trans hstart, hends⟩

/-- A search does not give up early. -/
theorem ScansTo.endsAt (h : p.ScansTo row levels base anchor last stop) (hle : anchor ≤ last) :
    p.EndsAt row base anchor stop := by
  induction h with
  | endOfRow behind => exact .inl behind
  | @ends _ anchor _ _ a n at_anchor behind ends =>
      exact .inr ⟨anchor, a, n, le_rfl, hle, at_anchor, behind, ends⟩
  | stepsOver _ _ _ _ script _ _ ihMore =>
      exact ihMore (hle.trans (Nat.le_of_succ_le script.last_le_stop))
  | takesUp _ _ _ _ _ ih => exact (ih le_rfl).mono (Nat.le_succ_of_le hle)

/-- A search looks at its anchor and at what is behind it, up to two places behind its end. -/
theorem ScansTo.of_agrees (h : p.ScansTo row levels base anchor last stop) (hle : anchor ≤ last)
    (hagrees : ∀ place, anchor ≤ place → place ≤ stop + 2 → other[place]? = row[place]?) :
    p.ScansTo other levels base anchor last stop := by
  induction h with
  | endOfRow behind =>
      rw [← hagrees _ (by omega) (by omega)] at behind
      exact .endOfRow behind
  | ends at_anchor behind ends =>
      rw [← hagrees _ le_rfl (by omega)] at at_anchor
      rw [← hagrees _ (by omega) (by omega)] at behind ends
      exact .ends at_anchor behind ends
  | stepsOver at_anchor behind goes carries script more ihScript ihMore =>
      have hscript := script.last_le_stop
      have hmore := more.last_le_stop
      rw [← hagrees _ le_rfl (by omega)] at at_anchor
      rw [← hagrees _ (by omega) (by omega)] at behind goes
      have hscriptAgrees := ihScript le_rfl fun place _ _ => hagrees place (by omega) (by omega)
      exact .stepsOver at_anchor behind goes carries hscriptAgrees (ihMore (by omega) hagrees)
  | takesUp at_anchor behind goes alone more ih =>
      have hmore := more.last_le_stop
      rw [← hagrees _ le_rfl (by omega)] at at_anchor
      rw [← hagrees _ (by omega) (by omega)] at behind goes
      exact .takesUp at_anchor behind goes alone (ih le_rfl fun place _ _ =>
        hagrees place (by omega) (by omega))

/-! ## §3  The end of a script in a row -/

/-- The place where a script ends that starts in some place of a row, whichever node is its base.
Where the row has no such place, nothing is behind it, and the node to start from is not asked
for. -/
def scriptEnd (p : Page κ) (levels : ℕ) (base : Node κ) (row : List (Node κ)) (start : ℕ) :
    Except LimitPassed ℕ :=
  (p.scriptLength levels base (row[start]?.getD base) (row.drop (start + 1))).map (start + ·)

theorem scriptEnd_eq_ok_iff {start : ℕ} (hstart : start < row.length) :
    p.scriptEnd levels base row start = .ok stop ↔ p.ScansTo row levels base start start stop := by
  have hfirst : row[start]? = some row[start] := List.getElem?_eq_getElem hstart
  rw [scriptEnd, hfirst, Option.getD_some]
  constructor
  · intro h
    obtain ⟨length, hlength, rfl⟩ := exists_of_map_eq_ok h
    exact .of_scriptLength hlength hfirst rfl
  · intro h
    obtain ⟨length, hlength, rfl⟩ := h.exists_length hfirst
    rw [hlength]
    rfl

/-- **The reach of a script.** Whichever node is the base, and however many levels are left: with
one for each node from the start on, an end is found. Wherever one is found, it is a place of the
row and not in front of the start, no node behind the start and up to the end is an equals sign, and
the script has to end there. On every row with the same nodes from the start up to two places behind
the end, and with none where this row has none, the script ends in that place. -/
theorem scriptEnd_inRow_and_local (p : Page κ) (levels : ℕ) (base : Node κ) {row : List (Node κ)}
    {start : ℕ} (hstart : start < row.length) :
    (row.length ≤ start + levels → ∃ stop, p.scriptEnd levels base row start = .ok stop) ∧
      ∀ stop, p.scriptEnd levels base row start = .ok stop →
        start ≤ stop ∧ stop < row.length ∧
          (∀ place n, start < place → place ≤ stop → row[place]? = some n → n.text ≠ ['=']) ∧
          p.EndsAt row base start stop ∧
          ∀ other, (∀ place, start ≤ place → place ≤ stop + 2 → other[place]? = row[place]?) →
            p.scriptEnd levels base other start = .ok stop := by
  refine ⟨fun hlevels => ?_, fun stop h => ?_⟩
  · have hbehind : (row.drop (start + 1)).length < levels := by
      rw [List.length_drop]
      omega
    exact exists_map_eq_ok _ (exists_scriptLength base _ hbehind)
  have hscan := (scriptEnd_eq_ok_iff hstart).1 h
  have hle := hscan.last_le_stop
  refine ⟨hle, ?_, fun _ _ => hscan.text_ne_equals, hscan.endsAt le_rfl, fun other hagrees => ?_⟩
  · obtain ⟨length, hlength, rfl⟩ := hscan.exists_length (List.getElem?_eq_getElem hstart)
    have hbehind := scriptLength_le hlength
    rw [List.length_drop] at hbehind
    omega
  · have hfirst : other[start]? = some row[start] := by
      rw [hagrees start le_rfl (by omega)]
      exact List.getElem?_eq_getElem hstart
    obtain ⟨hother, _⟩ := List.getElem?_eq_some_iff.1 hfirst
    exact (scriptEnd_eq_ok_iff hother).2 (hscan.of_agrees le_rfl hagrees)

end Page

def powerBase : Detection Float := symbolAt "x" 0.3 0.5 0.1 0.1

/-- The row of `x` to the power of `2,5³ + 1`, which is to be four. -/
def decimalScript : List (Node Float) :=
  splice 0 ([powerBase, symbolAt "2" 0.4 0.45 0.03 0.04, symbolAt "," 0.43 0.47 0.01 0.01,
    symbolAt "5" 0.46 0.45 0.03 0.04, symbolAt "3" 0.48 0.448 0.006 0.015,
      symbolAt "+" 0.53 0.45 0.03 0.03,
    symbolAt "1" 0.57 0.45 0.015 0.04, symbolAt "=" 0.65 0.5 0.05 0.03,
    symbolAt "4" 0.75 0.5 0.08 0.1].map (.ofDetection .standard)) []

/-- The script goes past the comma and past the power in it, up to the one. What stands behind the
four does not matter. -/
theorem decimalScript_inRow_and_local :
    1 < decimalScript.length ∧
      standardPage.scriptEnd 64 (.plain 0 (.ofDetection .standard powerBase))
        decimalScript 1 = .ok 6 ∧
      (∀ place n, 1 < place → place ≤ 6 → decimalScript[place]? = some n → n.text ≠ ['=']) ∧
      standardPage.EndsAt decimalScript (.plain 0 (.ofDetection .standard powerBase)) 1 6 ∧
      ∀ more, standardPage.scriptEnd 64 (.plain 0 (.ofDetection .standard powerBase))
        (decimalScript ++ more) 1 = .ok 6 := by
  have hstart : 1 < decimalScript.length := by decide +kernel
  have hlength : 8 < decimalScript.length := by decide +kernel
  have hend : standardPage.scriptEnd 64 (.plain 0 (.ofDetection .standard powerBase))
      decimalScript 1 = .ok 6 := by
    decide +kernel
  obtain ⟨_, _, hequals, hends, hlocal⟩ := (Page.scriptEnd_inRow_and_local standardPage 64
    (.plain 0 (.ofDetection .standard powerBase)) hstart).2 6 hend
  refine ⟨hstart, hend, hequals, hends, fun more => hlocal _ fun place _ hplace => ?_⟩
  exact List.getElem?_append_left (Nat.lt_of_le_of_lt hplace hlength)

/-- The row of `x²`, a plus as high as the script, and a digit of some height. -/
def plusBehindSquare (height : Float) : List (Node Float) :=
  splice 0 ([powerBase, symbolAt "2" 0.4 0.45 0.03 0.04, symbolAt "+" 0.45 0.45 0.03 0.03,
    symbolAt "3" 0.5 height 0.03 0.04].map (.ofDetection .standard)) []

-- the second place behind the end is looked at: by the digit the plus belongs to the script or to
-- the line of the base
example :
    standardPage.scriptEnd 64 (.plain 0 (.ofDetection .standard powerBase))
      (plusBehindSquare 0.45) 1 = .ok 3 ∧
      standardPage.scriptEnd 64 (.plain 0 (.ofDetection .standard powerBase))
          (plusBehindSquare 0.55) 1 = .ok 1 := by
  decide +kernel

end InkAlgebra

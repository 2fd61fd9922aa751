import InkAlgebra.Proofs.Expression.Adjacency

/-!
# Canonical forms are settled

There is nothing to do in a canonical form: its products are written, its marks are those of
expressions, and its numbers have no leading zeros. Only one mark means something else when it is
read again. A point multiplies in handwriting and starts decimals in an expression, so a canonical
form is read again with commas for its points; and then it is its own canonical form.

Dropping zeros comes last and could have undone what the steps before it have settled. It keeps
products written (`ProductsWritten.stripZerosFrom`), and the zeros that it leaves are found in the
same states by a second reading (`stripZerosFrom_again`), those behind a point included.

§1 is zeros, §2 products and marks, §3 the two together.
-/

namespace InkAlgebra

/-! ## §1  Leading zeros -/

/-- Where to begin with what was written in a state. Behind zeros that were dropped this is a new
run, since it starts with a digit in any case. -/
def ZeroState.again : ZeroState → ZeroState
  | .leading => .outside
  | s => s

theorem ZeroState.again_after (c : Char) : (ZeroState.after c).again = ZeroState.after c := by
  unfold ZeroState.after
  split_ifs
  · rfl
  · rfl
  · rfl

/-- Zeros are dropped once and for all. -/
theorem stripZerosFrom_again (s : ZeroState) (text : List Char) :
    stripZerosFrom s.again (stripZerosFrom s text) = stripZerosFrom s text := by
  induction text generalizing s with
  | nil => cases s <;> rfl
  | cons c rest ih =>
      have hkept : ∀ t : ZeroState, t.again = t →
          stripZerosFrom t (stripZerosFrom t rest) = stripZerosFrom t rest := by
        intro t ht
        have hagain := ih t
        rwa [ht] at hagain
      have hafter := hkept _ (ZeroState.again_after c)
      cases s with
      | outside =>
          rw [stripZerosFrom]
          split
          · exact ih .leading
          · rename_i hc
            show (if c = '0' then _ else _) = _
            rw [if_neg hc, hafter]
      | kept =>
          exact congrArg (c :: ·) hafter
      | behindPoint =>
          have hnext : (if c = '.' then ZeroState.behindPoint else .kept).again =
              if c = '.' then .behindPoint else .kept := by
            split
            · rfl
            · rfl
          exact congrArg (c :: ·) (hkept _ hnext)
      | leading =>
          rw [stripZerosFrom, ZeroState.again]
          split
          · exact ih .leading
          · rename_i hc
            split
            · rename_i hdigit
              have hstate : ZeroState.after c = .kept := if_pos hdigit
              rw [stripZerosFrom, if_neg hc, hstate, hkept _ rfl]
            · -- the zero that is written here is the front of a run again
              rename_i hdigit
              rw [stripZerosFrom, if_pos rfl, stripZerosFrom, if_neg hc, if_neg hdigit, hafter]

/-! ## §2  Products and marks -/

/-- The mark of handwriting for a mark of expressions: a comma for a point. -/
def handwritten (c : Char) : Char := if c = '.' then ',' else c

theorem canonicalMark_handwritten (c : Char) :
    canonicalMark (handwritten (canonicalMark c)) = canonicalMark c := by
  generalize hmark : canonicalMark c = d
  have hcases := hmark
  unfold canonicalMark at hcases
  split at hcases
  case h_8 hpoint _ _ _ _ _ _ =>
    subst hcases
    rw [handwritten, if_neg hpoint, hmark]
  all_goals
    subst hcases
    rfl

/-- Everything in a canonical form is a mark of expressions. -/
theorem canonicalMark_of_mem_canonicalForm {c : Char} {text : List Char}
    (h : c ∈ canonicalForm text) :
    canonicalMark (handwritten c) = c := by
  rcases mem_stripZerosFrom h with rfl | hmarked
  · rfl
  · rcases mem_writeProducts hmarked with rfl | ⟨d, _, rfl⟩
    · rfl
    · exact canonicalMark_handwritten d

/-- Where all products are written, none is put in. -/
theorem writeProducts_map_handwritten {prev : Char} {text : List Char}
    (hmarks : ∀ c ∈ prev :: text, canonicalMark (handwritten c) = c)
    (h : ProductsWritten (prev :: text)) :
    writeProducts (some (handwritten prev)) (text.map handwritten) = text := by
  induction text generalizing prev with
  | nil => rfl
  | cons c rest ih =>
      obtain ⟨hprev, hmarks'⟩ := List.forall_mem_cons.1 hmarks
      obtain ⟨hwritten, hrest⟩ := List.isChain_cons_cons.1 h
      have hc : canonicalMark (handwritten c) = c := hmarks' c List.mem_cons_self
      have hnone : needsProduct (handwritten prev) (handwritten c) = false := by
        rw [← needsProduct_canonicalMark, hprev, hc]
        exact hwritten
      show (if needsProduct (handwritten prev) (handwritten c) then _ else _) = _
      rw [hnone, ih hmarks' hrest, hc]
      rfl

/-! ## §3  Canonical forms -/

/-- A canonical form that is written by hand has its marks and products back. -/
theorem writeProducts_canonicalForm (text : List Char) :
    writeProducts none ((canonicalForm text).map handwritten) = canonicalForm text := by
  -- a `*` in front stands for nothing in front
  have hmarks : ∀ c ∈ '*' :: canonicalForm text, canonicalMark (handwritten c) = c :=
    List.forall_mem_cons.2 ⟨rfl, fun _ => canonicalMark_of_mem_canonicalForm⟩
  have hproducts : ProductsWritten ('*' :: canonicalForm text) := by
    refine List.isChain_cons.2 ⟨?_, productsWritten_canonicalForm text⟩
    intro c _
    exact needsProduct_eq_false_left (by decide) (by decide) c
  rw [← writeProducts_some (b := '*') (by decide) (by decide)]
  exact writeProducts_map_handwritten hmarks hproducts

/-- **Settled.** A canonical form is its own canonical form once its points are commas again; a text
without commas has no points there to begin with. -/
theorem canonicalForm_settled (text : List Char) :
    canonicalForm ((canonicalForm text).map handwritten) = canonicalForm text ∧
      (',' ∉ text → canonicalForm (canonicalForm text) = canonicalForm text) := by
  have hsettled : canonicalForm ((canonicalForm text).map handwritten) = canonicalForm text := by
    rw [canonicalForm, writeProducts_canonicalForm]
    exact stripZerosFrom_again .outside _
  refine ⟨hsettled, fun hcomma => ?_⟩
  have hhand : (canonicalForm text).map handwritten = canonicalForm text := by
    have hpoint : ∀ c ∈ canonicalForm text, handwritten c = c := by
      intro c hc
      apply if_neg
      rintro rfl
      exact point_not_mem_canonicalForm hcomma hc
    rw [List.map_congr_left hpoint, List.map_id']
  rwa [hhand] at hsettled

/-- Brackets of all kinds, products by points and by side, a division by a colon, and zeros in front
of digits, of a bracket and of nothing. -/
theorem canonicalForm_settled_withoutCommas :
    ',' ∉ "02[x.{y05}:003]00(7.00".toList ∧
      canonicalForm "02[x.{y05}:003]00(7.00".toList = "2*(x*(y*5)/3)*0*(7*0".toList ∧
      canonicalForm "2*(x*(y*5)/3)*0*(7*0".toList = "2*(x*(y*5)/3)*0*(7*0".toList := by
  have hcomma : ',' ∉ "02[x.{y05}:003]00(7.00".toList := by decide
  have hform : canonicalForm "02[x.{y05}:003]00(7.00".toList =
      "2*(x*(y*5)/3)*0*(7*0".toList := by decide
  have hagain := (canonicalForm_settled _).2 hcomma
  rw [hform] at hagain
  exact ⟨hcomma, hform, hagain⟩

end InkAlgebra

import Mathlib
import InkAlgebra.Number.Binary64
import InkAlgebra.Proofs.Expression.Adjacency
import InkAlgebra.Solution

/-!
# Other names for the unknown

Of a letter nothing is asked but that it is one. The canonical form of a text with other letters is
the canonical form with other letters; written in `x`, the two are the same text; and from there on
no letter is known but `x`. So the name of the unknown comes back as it was given, and nothing else
depends on it.

Letters may be put for letters in any way that keeps different letters of the text different: what
counts for an equation is whether there is a second one.

§1 is the canonical form, §2 the unknown, §3 whole solutions.
-/

namespace InkAlgebra

variable {f : Char → Char}

/-! ## §1  Canonical forms -/

/-- No mark makes a letter of what is none, or changes a letter. -/
theorem isLetter_canonicalMark (c : Char) : isLetter (canonicalMark c) = isLetter c :=
  (classes_canonicalMark c).2.1

theorem canonicalMark_of_isLetter {c : Char} (h : isLetter c = true) : canonicalMark c = c :=
  canonicalMark_of_isOperandChar (Bool.or_eq_true_iff.2 (.inr h))

namespace Relabels

theorem apply_eq_iff (hf : Relabels f) {c d : Char} (hd : isLetter d = false) : f c = d ↔ c = d :=
  ⟨hf.eq_of_apply_eq hd, fun h => h ▸ hf.eq_self (h ▸ hd)⟩

/-- A character and the one that is put for it are of one class. -/
theorem classes (hf : Relabels f) (c : Char) :
    (f c).isDigit = c.isDigit ∧ isLetter (f c) = isLetter c ∧
    isOpeningChar (f c) = isOpeningChar c ∧ isClosingChar (f c) = isClosingChar c := by
  have hdigit : ∀ d, isLetter d = true → d.isDigit = false := by
    intro d hd
    cases h : d.isDigit with
    | false => rfl
    | true => exact absurd (isNumeric_of_isDigit h) (Bool.eq_false_iff.1 (classes_of_isLetter hd).1)
  rcases hf c with hsame | ⟨hletter, hletter'⟩
  · rw [hsame]
    exact ⟨rfl, rfl, rfl, rfl⟩
  · obtain ⟨_, hopening, hclosing⟩ := classes_of_isLetter hletter
    obtain ⟨_, hopening', hclosing'⟩ := classes_of_isLetter hletter'
    rw [hdigit c hletter, hdigit _ hletter', hletter, hletter', hopening,
      hopening', hclosing, hclosing']
    exact ⟨rfl, rfl, rfl, rfl⟩

theorem needsProduct_apply (hf : Relabels f) (a b : Char) :
    needsProduct (f a) (f b) = needsProduct a b := by
  obtain ⟨hdigit, hletter, hopening, hclosing⟩ := hf.classes a
  obtain ⟨hdigit', hletter', hopening', hclosing'⟩ := hf.classes b
  simp only [needsProduct, isOperandChar, hdigit, hletter, hclosing, hdigit', hletter', hopening']

/-- Marks are put for marks, and a letter is no mark. -/
theorem canonicalMark_apply (hf : Relabels f) (c : Char) :
    canonicalMark (f c) = f (canonicalMark c) := by
  cases hletter : isLetter c with
  | true =>
      have hletter' : isLetter (f c) = true := by rw [hf.isLetter_apply, hletter]
      rw [canonicalMark_of_isLetter hletter, canonicalMark_of_isLetter hletter']
  | false =>
      have hmark : isLetter (canonicalMark c) = false := by rw [isLetter_canonicalMark, hletter]
      rw [hf.eq_self hletter, hf.eq_self hmark]

theorem writeProducts_map (hf : Relabels f) (prev : Option Char) (text : List Char) :
    writeProducts (prev.map f) (text.map f) = (writeProducts prev text).map f := by
  induction text generalizing prev with
  | nil => rfl
  | cons c rest ih =>
      have hneeds : (prev.map f).any (needsProduct · (f c)) = prev.any (needsProduct · c) := by
        cases prev with
        | none => rfl
        | some b => exact hf.needsProduct_apply b c
      have htimes : f '*' = '*' := hf.eq_self (by decide)
      have hrest : writeProducts (some (f c)) (rest.map f) =
          (writeProducts (some c) rest).map f := ih (some c)
      rw [List.map_cons, writeProducts, writeProducts, hneeds, hrest, hf.canonicalMark_apply]
      split
      · rw [List.map_cons, List.map_cons, htimes]
      · rw [List.map_cons]

theorem after_apply (hf : Relabels f) (c : Char) : ZeroState.after (f c) = ZeroState.after c := by
  have hpoint : f c = '.' ↔ c = '.' := hf.apply_eq_iff (by decide)
  unfold ZeroState.after
  rw [(hf.classes c).1]
  simp only [hpoint]

theorem stripZerosFrom_map (hf : Relabels f) (s : ZeroState) (text : List Char) :
    stripZerosFrom s (text.map f) = (stripZerosFrom s text).map f := by
  have hzero : f '0' = '0' := hf.eq_self (by decide)
  induction text generalizing s with
  | nil =>
      cases s with
      | leading => exact congrArg ([·]) hzero.symm
      | outside | kept | behindPoint => rfl
  | cons c rest ih =>
      have hisZero : f c = '0' ↔ c = '0' := hf.apply_eq_iff (by decide)
      have hisPoint : f c = '.' ↔ c = '.' := hf.apply_eq_iff (by decide)
      cases s with
      | outside =>
          simp only [List.map_cons, stripZerosFrom, hisZero, hf.after_apply, ih]
          split <;> rfl
      | kept =>
          simp only [List.map_cons, stripZerosFrom, hf.after_apply, ih]
      | behindPoint =>
          simp only [List.map_cons, stripZerosFrom, hisPoint, ih]
      | leading =>
          simp only [List.map_cons, stripZerosFrom, hisZero, (hf.classes c).1, hf.after_apply, ih]
          split
          · rfl
          · split
            · rfl
            · rw [List.map_cons, List.map_cons, hzero]

/-- **Canonical forms do not look at letters.** -/
theorem canonicalForm_map (hf : Relabels f) (text : List Char) :
    canonicalForm (text.map f) = (canonicalForm text).map f := by
  have hmarks : writeProducts none (text.map f) = (writeProducts none text).map f :=
    hf.writeProducts_map none text
  rw [canonicalForm, hmarks]
  exact hf.stripZerosFrom_map .outside _

end Relabels

/-! ## §2  The unknown -/

theorem filter_isLetter_writeProducts (prev : Option Char) (text : List Char) :
    (writeProducts prev text).filter isLetter = text.filter isLetter := by
  induction text generalizing prev with
  | nil => rfl
  | cons c rest ih =>
      have hmarked : (canonicalMark c :: writeProducts (some c) rest).filter isLetter =
          (c :: rest).filter isLetter := by
        cases hletter : isLetter c with
        | true => rw [canonicalMark_of_isLetter hletter, List.filter_cons, List.filter_cons, ih]
        | false =>
            have hmark : isLetter (canonicalMark c) = false := by
              rw [isLetter_canonicalMark, hletter]
            rw [List.filter_cons, List.filter_cons, hmark, hletter, ih]
            rfl
      rw [writeProducts]
      split
      · exact hmarked
      · exact hmarked

theorem filter_isLetter_stripZerosFrom (s : ZeroState) (text : List Char) :
    (stripZerosFrom s text).filter isLetter = text.filter isLetter := by
  have hzero : isLetter '0' = false := by decide
  induction text generalizing s with
  | nil => cases s <;> rfl
  | cons c rest ih =>
      have hkept : ∀ t, (c :: stripZerosFrom t rest).filter isLetter =
          (c :: rest).filter isLetter := by
        intro t
        rw [List.filter_cons, List.filter_cons, ih]
      cases s with
      | kept | behindPoint => exact hkept _
      | outside =>
          rw [stripZerosFrom]
          split
          · rename_i hc
            rw [hc, ih, List.filter_cons, hzero]
            rfl
          · exact hkept _
      | leading =>
          rw [stripZerosFrom]
          split
          · rename_i hc
            rw [hc, ih, List.filter_cons, hzero]
            rfl
          · split
            · exact hkept _
            · rw [List.filter_cons, hzero]
              exact hkept _

/-- A canonical form has the letters of its text, in their order. -/
theorem filter_isLetter_canonicalForm (text : List Char) :
    (canonicalForm text).filter isLetter = text.filter isLetter :=
  (filter_isLetter_stripZerosFrom .outside _).trans (filter_isLetter_writeProducts none text)

theorem countP_isLetter_canonicalForm (text : List Char) :
    (canonicalForm text).countP isLetter = text.countP isLetter := by
  rw [List.countP_eq_length_filter, filter_isLetter_canonicalForm, List.countP_eq_length_filter]

/-- Of no letter a text has more than letters, with other letters neither. -/
theorem Relabels.count_map_le (hf : Relabels f) (text : List Char) :
    (text.map f).count 'x' ≤ text.countP isLetter := by
  have hx : ∀ c, (c == 'x') = true → isLetter c = true := by
    intro c hc
    rw [eq_of_beq hc]
    decide
  calc (text.map f).count 'x' ≤ (text.map f).countP isLetter :=
        List.countP_mono_left fun c _ => hx c
    _ = text.countP isLetter := by
        rw [List.countP_map]
        exact List.countP_congr fun c _ => by rw [Function.comp_apply, (hf.classes c).2.1]

theorem mem_canonicalForm_iff {c : Char} (h : isLetter c = true) (text : List Char) :
    c ∈ canonicalForm text ↔ c ∈ text := by
  have hfilter := filter_isLetter_canonicalForm text
  have hmem : ∀ row : List Char, c ∈ row ↔ c ∈ row.filter isLetter := fun row => by simp [h]
  rw [hmem, hfilter, ← hmem]

/-- Whether different letters of a text stay different. -/
def KeepsApart (f : Char → Char) (text : List Char) : Prop :=
  Set.InjOn f {c | c ∈ text ∧ isLetter c = true}

theorem KeepsApart.canonicalForm {text : List Char} (h : KeepsApart f text) :
    KeepsApart f (canonicalForm text) := by
  intro c hc d hd heq
  exact h ⟨(mem_canonicalForm_iff hc.2 text).1 hc.1, hc.2⟩
    ⟨(mem_canonicalForm_iff hd.2 text).1 hd.1, hd.2⟩ heq

theorem KeepsApart.apply_eq_iff (hf : Relabels f) {text : List Char} (h : KeepsApart f text)
    {c u : Char} (hc : c ∈ text) (hu : u ∈ text) (hletter : isLetter u = true) :
    f c = f u ↔ c = u := by
  refine ⟨fun heq => ?_, fun heq => heq ▸ rfl⟩
  have hletter' : isLetter c = true := by rw [← hf.isLetter_apply, heq, hf.isLetter_apply, hletter]
  exact h ⟨hc, hletter'⟩ ⟨hu, hletter⟩ heq

/-- **The unknown.** Written in `x` a text is the same whatever the name of its unknown. -/
theorem inOneUnknown_map {α : Type} (hf : Relabels f) {text : List Char} (h : KeepsApart f text) :
    inOneUnknown (α := α) (text.map f) = (inOneUnknown text).map (Prod.map id (Option.map f)) := by
  have hfind : (text.map f).find? isLetter = (text.find? isLetter).map f := by
    have hcomp : isLetter ∘ f = isLetter := funext hf.isLetter_apply
    rw [List.find?_map, hcomp]
  unfold inOneUnknown
  rw [hfind]
  cases hfound : text.find? isLetter with
  | none =>
      have hsame : text.map f = text := by
        refine (List.map_congr_left fun c hc => ?_).trans (List.map_id' text)
        exact hf.eq_self (Bool.eq_false_iff.2 (List.find?_eq_none.1 hfound c hc))
      rw [hsame]
      rfl
  | some u =>
      have hu : isLetter u = true := List.find?_some hfound
      have humem : u ∈ text := List.mem_of_find?_eq_some hfound
      have hsame : ∀ c ∈ text, f c = f u ↔ c = u := fun c hc => h.apply_eq_iff hf hc humem hu
      have hall : ((text.map f).all fun c => !isLetter c || c = f u) =
          text.all fun c => !isLetter c || c = u := by
        rw [List.all_map, Bool.eq_iff_iff, List.all_eq_true, List.all_eq_true]
        refine forall₂_congr fun c hc => ?_
        rw [Function.comp_apply, hf.isLetter_apply, decide_eq_decide.2 (hsame c hc)]
      show (if ((text.map f).all fun c => !isLetter c || c = f u) then _ else _) = _
      rw [hall]
      dsimp only
      split
      · rename_i hone
        have hinX : ((text.map f).map fun c => if c = f u then 'x' else c) =
            text.map fun c => if c = u then 'x' else c := by
          rw [List.map_map]
          refine List.map_congr_left fun c hc => ?_
          rw [Function.comp_apply]
          by_cases hcu : c = u
          · rw [if_pos ((hsame c hc).2 hcu), if_pos hcu]
          · -- the text has no other letter, and what is no letter stays
            have hone' := List.all_eq_true.1 hone c hc
            have hletter : isLetter c = false := by simpa [hcu] using hone'
            rw [if_neg (mt (hsame c hc).1 hcu), if_neg hcu, hf.eq_self hletter]
        rw [hinX]
        rfl
      · rfl

/-! ## §3  Solutions -/

variable {α : Type} [Coefficient α] (write : α → List Char) (s : SolverSettings α)
  (typesetter : Typesetter)

omit [Coefficient α] in
/-- The letter that occurs is the unknown, if it is the only one. -/
theorem exists_inOneUnknown {v : Char} {text : List Char} (hv : isLetter v = true) (hmem : v ∈ text)
    (honly : ∀ c ∈ text, isLetter c = true → c = v) :
    ∃ inX, inOneUnknown (α := α) text = .ok (inX, some v) := by
  have hfind : text.find? isLetter = some v := by
    cases hfound : text.find? isLetter with
    | none => exact absurd hv (List.find?_eq_none.1 hfound v hmem)
    | some u => rw [honly u (List.mem_of_find?_eq_some hfound) (List.find?_some hfound)]
  have hone : (text.all fun c => !isLetter c || c = v) = true := by
    refine List.all_eq_true.2 fun c hc => ?_
    cases hletter : isLetter c with
    | true => simp [honly c hc hletter]
    | false => rfl
  unfold inOneUnknown
  rw [hfind]
  dsimp only
  rw [if_pos hone]
  exact ⟨_, rfl⟩

theorem solveCanonical_map (hf : Relabels f) {text : List Char} (h : KeepsApart f text) :
    solveCanonical s (text.map f) =
        ((solveCanonical s text).1.map f, (solveCanonical s text).2) := by
  unfold solveCanonical
  rw [inOneUnknown_map hf h]
  cases inOneUnknown (α := α) text with
  | error e => rfl
  | ok found => rfl

/-- Solutions of texts with other letters differ in the letters of the expression and in the
unknown; where there is none of the one text, there is none of the other. -/
theorem solveExpression_map (hf : Relabels f) {raw : List Char} (h : KeepsApart f raw) :
    Option.Rel (fun before after => after.valid = before.valid ∧ after.message = before.message ∧
        after.roots = before.roots ∧ after.expression.toList = before.expression.toList.map f ∧
        before.unknown = (solveCanonical s (canonicalForm raw)).1 ∧
        after.unknown = before.unknown.map f)
      (solveExpression write s typesetter raw)
      (solveExpression write s typesetter (raw.map f)) := by
  have hexpression : (String.ofList ((canonicalForm raw).map f)).toList =
      (String.ofList (canonicalForm raw)).toList.map f := by
    rw [String.toList_ofList, String.toList_ofList]
  unfold solveExpression
  dsimp only
  rw [hf.canonicalForm_map, solveCanonical_map s hf h.canonicalForm]
  rcases (solveCanonical s (canonicalForm raw)).2 with (_ | e) | roots
  · exact .none
  · exact .some ⟨rfl, rfl, rfl, hexpression, rfl, rfl⟩
  · exact .some ⟨rfl, rfl, rfl, hexpression, rfl, rfl⟩

/-- The map that puts one letter for another and changes nothing else. -/
def replaceLetter (v w c : Char) : Char := if c = v then w else c

theorem relabels_replaceLetter {v w : Char} (hv : isLetter v = true) (hw : isLetter w = true) :
    Relabels (replaceLetter v w) := by
  intro c
  by_cases hc : c = v
  · refine .inr ⟨hc ▸ hv, ?_⟩
    rw [replaceLetter, if_pos hc]
    exact hw
  · exact .inl (if_neg hc)

/-- **The name of the unknown does not matter.** A text with one letter and the same text with
another letter for it are solved alike: neither has a solution, or both are valid or neither is,
with the same message and the same roots. The expression is the same with the other letter, and so
is the unknown. -/
theorem solveExpression_renamed {v w : Char} {raw : List Char} (hv : isLetter v = true)
    (hw : isLetter w = true) (hmem : v ∈ raw) (honly : ∀ c ∈ raw, isLetter c = true → c = v) :
    Option.Rel (fun before after => after.valid = before.valid ∧ after.message = before.message ∧
        after.roots = before.roots ∧
        after.expression.toList = before.expression.toList.map (replaceLetter v w) ∧
        before.unknown = some v ∧ after.unknown = some w)
      (solveExpression write s typesetter raw)
      (solveExpression write s typesetter (raw.map (replaceLetter v w))) := by
  have hf : Relabels (replaceLetter v w) := relabels_replaceLetter hv hw
  have hapart : KeepsApart (replaceLetter v w) raw := by
    rintro c ⟨hc, hcletter⟩ d ⟨hd, hdletter⟩ _
    rw [honly c hc hcletter, honly d hd hdletter]
  have hunknown : (solveCanonical s (canonicalForm raw)).1 = some v := by
    have honly' : ∀ c ∈ canonicalForm raw, isLetter c = true → c = v :=
      fun c hc hletter => honly c ((mem_canonicalForm_iff hletter raw).1 hc) hletter
    obtain ⟨inX, hinX⟩ :=
      exists_inOneUnknown (α := α) hv ((mem_canonicalForm_iff hv raw).2 hmem) honly'
    rw [solveCanonical, hinX]
  have hmap := solveExpression_map write s typesetter hf hapart
  rw [hunknown] at hmap
  generalize solveExpression write s typesetter raw = x at hmap ⊢
  generalize solveExpression write s typesetter (raw.map (replaceLetter v w)) = y at hmap ⊢
  cases hmap with
  | none => exact .none
  | some hrel =>
      obtain ⟨hvalid, hmessage, hroots, hexpression, hbefore, hafter⟩ := hrel
      refine .some ⟨hvalid, hmessage, hroots, hexpression, hbefore, ?_⟩
      rw [hafter, hbefore]
      exact congrArg some (if_pos rfl)

/-- A letter of another script for the unknown, with a product to be written before it and zeros to
be dropped. -/
theorem twiceUnknown_renamed :
    ∃ before after : Solution Float,
      solveExpression (fun _ => []) .standard typeset "02y-04=0".toList = some before ∧
      solveExpression (fun _ => []) .standard typeset "02Ω-04=0".toList = some after ∧
      before.valid = true ∧ after.valid = before.valid ∧ after.message = before.message ∧
      after.roots = before.roots ∧
      after.expression.toList = before.expression.toList.map (replaceLetter 'y' 'Ω') ∧
      before.unknown = some 'y' ∧ after.unknown = some 'Ω' := by
  obtain ⟨before, hbefore, hvalid⟩ : ∃ before : Solution Float,
      solveExpression (fun _ => []) .standard
      typeset "02y-04=0".toList = some before ∧ before.valid = true :=
    (Option.any_eq_true ..).1 (by decide +kernel)
  have hmem : 'y' ∈ "02y-04=0".toList := by decide
  have honly : ∀ c ∈ "02y-04=0".toList, isLetter c = true → c = 'y' := by
    have hall : ("02y-04=0".toList.all fun c => !isLetter c || c = 'y') = true := by decide
    intro c hc hletter
    simpa [hletter] using List.all_eq_true.1 hall c hc
  have hletters : isLetter 'y' = true ∧ isLetter 'Ω' = true := by decide +kernel
  have htext : "02y-04=0".toList.map (replaceLetter 'y' 'Ω') =
      "02Ω-04=0".toList := by decide +kernel
  have hrenamed := solveExpression_renamed (α := Float) (fun _ => []) .standard typeset hletters.1
    hletters.2 hmem honly
  rw [htext, hbefore] at hrenamed
  generalize hresult : solveExpression (α := Float) (fun _ => []) .standard typeset
    "02Ω-04=0".toList = result at hrenamed
  obtain ⟨hrel⟩ := hrenamed
  exact ⟨before, _, hbefore, rfl, hvalid, hrel⟩

end InkAlgebra

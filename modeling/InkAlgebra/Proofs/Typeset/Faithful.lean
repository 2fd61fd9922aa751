import Mathlib
import InkAlgebra.Proofs.Expression.Value
import InkAlgebra.Proofs.Typeset.Reading

/-!
# What a typeset formula shows

A rendering drops the brackets of the typed text and puts in those that the tree needs, looking at
no more than the top of each side. What is read back need not be the same tree: a sum on the right
of a `+` is read from the left, so is a product in a product, and a sign in front of a product is
read as the sign of the whole. None of this changes the value.

One thing does. A right factor is put in brackets if it is a sum or has a sign, but not if it is a
product whose first factor has a sign. Its minus then stands behind a factor, and is read as a
difference: `a*(-x*y)` is shown as `a-xy`. Apart from these minuses, which can be counted off the
tree (`Formula.hiddenMinuses`), a formula shows what is typeset.

§1 is trees with the same value, §2 the parts of a line, §3 the number of sums and differences that
are read, §4 the value that is read. §5 is the whole way from a text.
-/

namespace InkAlgebra

/-! ## §1  Trees with the same value -/

namespace Expr

/-- Whether two trees have the same value, or none, whatever their letters stand for. -/
def SameValue (a b : Expr) : Prop :=
  ∀ (K : Type) [Field K] [LinearOrder K] [FloorRing K] (assign : Char → K),
    a.valueAt assign = b.valueAt assign

namespace SameValue

variable {a b c a' b' : Expr}

theorem refl (a : Expr) : SameValue a a := fun _ _ _ _ _ => rfl

theorem symm (h : SameValue a b) : SameValue b a := fun K _ _ _ assign => (h K assign).symm

theorem trans (h : SameValue a b) (h' : SameValue b c) : SameValue a c :=
  fun K _ _ _ assign => (h K assign).trans (h' K assign)

theorem binary (o : Operation) (h : SameValue a a') (h' : SameValue b b') :
    SameValue (.binary o a b) (.binary o a' b') := by
  intro K _ _ _ assign
  rw [valueAt, valueAt, h K assign, h' K assign]

theorem signed (s : Sign) (h : SameValue a a') : SameValue (.signed s a) (.signed s a') := by
  intro K _ _ _ assign
  rw [valueAt, valueAt, h K assign]

theorem plus (a : Expr) : SameValue (.signed .plus a) a := by
  intro K _ _ _ assign
  rw [valueAt]
  cases a.valueAt assign <;> rfl

theorem sum_sum (a b c : Expr) :
    SameValue (.binary .add (.binary .add a b) c) (.binary .add a (.binary .add b c)) := by
  intro K _ _ _ assign
  simp only [valueAt]
  cases a.valueAt assign <;> cases b.valueAt assign <;> cases c.valueAt assign <;>
    simp [Operation.value, add_assoc]

theorem sum_difference (a b c : Expr) :
    SameValue (.binary .sub (.binary .add a b) c) (.binary .add a (.binary .sub b c)) := by
  intro K _ _ _ assign
  simp only [valueAt]
  cases a.valueAt assign <;> cases b.valueAt assign <;> cases c.valueAt assign <;>
    simp [Operation.value, add_sub_assoc]

theorem product_product (a b c : Expr) :
    SameValue (.binary .mul (.binary .mul a b) c) (.binary .mul a (.binary .mul b c)) := by
  intro K _ _ _ assign
  simp only [valueAt]
  cases a.valueAt assign <;> cases b.valueAt assign <;> cases c.valueAt assign <;>
    simp [Operation.value, mul_assoc]

theorem minus_product (a b : Expr) :
    SameValue (.signed .minus (.binary .mul a b)) (.binary .mul (.signed .minus a) b) := by
  intro K _ _ _ assign
  simp only [valueAt]
  cases a.valueAt assign <;> cases b.valueAt assign <;> simp [Operation.value, Sign.value]

theorem minus_product_right (a b : Expr) :
    SameValue (.signed .minus (.binary .mul a b)) (.binary .mul a (.signed .minus b)) := by
  intro K _ _ _ assign
  simp only [valueAt]
  cases a.valueAt assign <;> cases b.valueAt assign <;> simp [Operation.value, Sign.value]

theorem times (factors : Option Expr) (h : SameValue a b) :
    SameValue (times factors a) (times factors b) := by
  cases factors with
  | none => exact h
  | some p => exact (refl p).binary .mul h

theorem times_times (factors : Option Expr) (a b : Expr) :
    SameValue (.binary .mul (InkAlgebra.times factors a) b)
        (InkAlgebra.times factors (.binary .mul a b)) := by
  cases factors with
  | none => exact refl _
  | some p => exact product_product p a b

theorem minus_times (factors : Option Expr) (a : Expr) :
    SameValue (.signed .minus (InkAlgebra.times factors a))
        (InkAlgebra.times factors (.signed .minus a)) := by
  cases factors with
  | none => exact refl _
  | some p => exact minus_product_right p a

theorem foldr_signed (signs : List Sign) (h : SameValue a b) :
    SameValue (signs.foldr Expr.signed a) (signs.foldr Expr.signed b) := by
  induction signs with
  | nil => exact h
  | cons s signs ih => exact ih.signed s

theorem around (l : Line) (h : SameValue a b) : SameValue (l.around a) (l.around b) := by
  obtain ⟨sum, signs, factors, last⟩ := l
  cases sum with
  | none => exact h.foldr_signed signs
  | some before => exact (refl before.1).binary before.2 (h.foldr_signed signs)

end SameValue

end Expr

open InkAlgebra.Expr (SameValue)

/-! ## §2  The parts of a line -/

namespace Line

/-- The expression that a line becomes with one more factor. -/
def plug (l : Line) (e : Expr) : Expr := l.around (times l.product e)

theorem close_put {l : Line} {last : Last} {e : Expr} (h : last.expr? = some e) :
    (l.put last).close = some (l.plug e) := by
  show last.expr?.map _ = _
  rw [h]
  rfl

theorem plug_put {l : Line} {last : Last} {e : Expr} (h : last.expr? = some e) (x : Expr) :
    SameValue ((l.put last).plug x) (l.plug (.binary .mul e x)) := by
  have hproduct : (l.put last).product = some (times l.product e) := by
    unfold product put
    dsimp only
    rw [h]
    rfl
  have hplug : (l.put last).plug x = l.around (.binary .mul (times l.product e) x) := by
    rw [plug, hproduct]
    rfl
  rw [hplug]
  exact (SameValue.times_times l.product e x).around l

/-- What stands in brackets is one factor. -/
theorem exists_embed_true (e : Expr) {l : Line} (hl : l.Ready) :
    ∃ r, (shown e {}).close = some r ∧ l.embed true (shown e) = l.put (.whole r) := by
  obtain ⟨r, hr⟩ := (ended_shown e ready_empty).exists_close
  exact ⟨r, hr, by rw [embed, if_pos rfl, group_eq_give hr, give_eq_put hl]⟩

/-- An atom is one factor. -/
theorem exists_shown_of_isAtom {e : Expr} (h : e.formula.isAtom = true) (l : Line) :
    ∃ last r, (shown e {}).close = some r ∧ last.expr? = some r ∧ shown e l = l.put last := by
  induction e with
  | number text => exact ⟨.number text, _, rfl, rfl, rfl⟩
  | letter c => exact ⟨.whole (.letter c), _, rfl, rfl, rfl⟩
  | signed s a ih =>
      cases s with
      | plus => exact ih h
      | minus => cases h
  | binary o a b _ _ => cases h

/-- A fraction or a power is one factor. -/
theorem exists_shown_factor {o : Operation} (ho : o = .div ∨ o = .pow) (a b : Expr) {l : Line}
    (hl : l.Ready) :
    ∃ x y, (shown a {}).close = some x ∧ (shown b {}).close = some y ∧
      shown (.binary o a b) l = l.put (.whole (.binary o x y)) := by
  obtain ⟨y, hy⟩ := (ended_shown b ready_empty).exists_close
  rcases ho with rfl | rfl
  · obtain ⟨x, hx⟩ := (ended_shown a ready_empty).exists_close
    exact ⟨x, y, hx, hy, group_group_fraction hx hy l⟩
  · obtain ⟨last, x, hx, hlast, hbase⟩ : ∃ last x, (shown a {}).close = some x ∧
      last.expr? = some x ∧ l.embed (!a.formula.isAtom) (shown a) = l.put last := by
      cases hatom : a.formula.isAtom with
      | true => exact exists_shown_of_isAtom hatom l
      | false =>
          obtain ⟨r, hr, hput⟩ := exists_embed_true a hl
          exact ⟨.whole r, r, hr, rfl, hput⟩
    refine ⟨x, y, hx, hy, ?_⟩
    have hended : (l.put last).last.expr? = some x := hlast
    rw [shown, hbase, raised_group hy hended]
    rfl

end Line

/-! ## §3  Sums and differences -/

def Operation.sums : Operation → ℕ
  | add | sub => 1
  | _ => 0

/-- The number of sums and differences in a tree. -/
def Expr.sums : Expr → ℕ
  | number _ | letter _ => 0
  | signed _ a => a.sums
  | binary o a b => a.sums + b.sums + o.sums

namespace Formula

/-- Whether the rendering of a factor begins with a minus. -/
def leadsWithMinus : Formula → Bool
  | neg _ => true
  | binary .mul a _ => a.leadsWithMinus
  | _ => false

/-- The number of minuses that stand right behind a factor, in a rendering that means them as
signs. -/
def hiddenMinuses : Formula → ℕ
  | atom _ => 0
  | neg a => a.hiddenMinuses
  | binary .mul a b =>
    a.hiddenMinuses + b.hiddenMinuses + if !b.isNeg && b.leadsWithMinus then 1 else 0
  | binary _ a b => a.hiddenMinuses + b.hiddenMinuses

theorem isSum_eq_false_of_leadsWithMinus {f : Formula} (h : f.leadsWithMinus = true) :
    f.isSum = false := by
  cases f with
  | atom text => rfl
  | neg a => rfl
  | binary o a b =>
      cases o with
      | add | sub => cases h
      | _ => rfl

end Formula

namespace Line

/-- The number of sums and differences in a line. -/
def sums (l : Line) : ℕ :=
  (l.sum.elim 0 fun before => before.1.sums + before.2.sums) + l.product.elim 0 Expr.sums

@[simp] theorem sums_empty : sums {} = 0 := rfl

theorem sums_times (factors : Option Expr) (e : Expr) :
    (times factors e).sums = factors.elim 0 Expr.sums + e.sums := by
  cases factors with
  | none => simp [times]
  | some p => simp [times, Expr.sums, Operation.sums]

theorem sums_around (l : Line) (e : Expr) :
    (l.around e).sums = (l.sum.elim 0 fun before => before.1.sums + before.2.sums) + e.sums := by
  have hsigns : ∀ signs : List Sign, (signs.foldr Expr.signed e).sums = e.sums := by
    intro signs
    induction signs with
    | nil => rfl
    | cons s signs ih => exact ih
  cases hsum : l.sum with
  | none => simp [around, hsum, hsigns]
  | some before => simp [around, hsum, hsigns, Expr.sums]; omega

theorem sums_close {l : Line} {e : Expr} (h : l.close = some e) : e.sums = l.sums := by
  obtain ⟨x, hx, rfl⟩ := Option.map_eq_some_iff.1 h
  have hproduct : l.product = some (times l.factors x) := by rw [product, hx]
  rw [sums_around, sums, hproduct]
  rfl

theorem sums_put (l : Line) (last : Last) :
    (l.put last).sums = l.sums + last.expr?.elim 0 Expr.sums := by
  have hproduct : (l.put last).product.elim 0 Expr.sums =
      l.product.elim 0 Expr.sums + last.expr?.elim 0 Expr.sums := by
    have hput : (l.put last).factors = l.product := rfl
    have hlast : (l.put last).last = last := rfl
    rw [product, hput, hlast]
    cases last.expr? with
    | none => simp
    | some e => simp [sums_times]
  rw [sums, hproduct, sums, ← Nat.add_assoc]
  rfl

theorem last_ne_nothing {l : Line} (h : l.Ended) : l.last ≠ .nothing := by
  obtain ⟨e, he⟩ := h
  intro hlast
  rw [hlast] at he
  cases he

/-- Behind a factor a `+` or `-` is an operation, and else a sign. -/
theorem sums_behind {l : Line} (hl : l.Ready) (s : Sign) {o : Operation} (ho : o.sums = 1) :
    (l.behind s o).sums = l.sums + if l.last = .nothing then 0 else 1 := by
  rcases hl with hlast | hended
  · rw [if_pos hlast]
    rw [behind_eq_of_nothing hlast]
    rfl
  · obtain ⟨e, he⟩ := hended.exists_close
    rw [if_neg (last_ne_nothing hended), behind_eq_of_close hended he, ← sums_close he, ← ho]
    rfl

/-- In brackets a tree shows its sums and differences and the minuses that are read as such. -/
theorem sums_embed {e : Expr} {wrap : Bool} {l : Line} (hl : l.Ready)
    (hstart : (shown e {}).sums = e.sums + e.formula.hiddenMinuses)
    (hshown : wrap = false → (shown e l).sums = l.sums + e.sums + e.formula.hiddenMinuses +
      if l.last ≠ .nothing ∧ e.formula.leadsWithMinus = true then 1 else 0) :
    (l.embed wrap (shown e)).sums = l.sums + e.sums + e.formula.hiddenMinuses +
      if l.last ≠ .nothing ∧ wrap = false ∧ e.formula.leadsWithMinus = true then 1 else 0 := by
  cases wrap with
  | false => simpa [embed] using hshown rfl
  | true =>
      obtain ⟨r, hr, hput⟩ := exists_embed_true e hl
      rw [hput, sums_put, Last.expr?, Option.elim_some, sums_close hr, hstart]
      simp [Nat.add_assoc]

/-- A factor that begins with a minus does not run into anything. -/
theorem needsTimes_of_leadsWithMinus {f : Formula} (h : f.leadsWithMinus = true) :
    Formula.needsTimes f.render = false := by
  have hminus : ∃ rest, f.render = '-' :: rest := by
    induction f with
    | atom text => cases h
    | neg a _ => exact ⟨_, rfl⟩
    | binary o a b ih _ =>
        cases o with
        | mul =>
            have hsum : a.isSum = false := Formula.isSum_eq_false_of_leadsWithMinus h
            obtain ⟨rest, hrest⟩ := ih h
            rw [Formula.render, hsum, Formula.bracketedIf, if_neg Bool.false_ne_true, hrest]
            exact ⟨_, rfl⟩
        | _ => cases h
  obtain ⟨rest, hrest⟩ := hminus
  rw [hrest]
  rfl

/-- Behind a factor the next one adds its sums and differences, and its minus if that is hidden. -/
theorem sums_factor {e : Expr} {l : Line} (hl : l.Ended)
    (hstart : (shown e {}).sums = e.sums + e.formula.hiddenMinuses)
    (hshown : ∀ {l : Line}, l.Ready → (e.formula.isSum = true → l.last = .nothing) →
      (shown e l).sums = l.sums + e.sums + e.formula.hiddenMinuses +
        if l.last ≠ .nothing ∧ e.formula.leadsWithMinus = true then 1 else 0) :
    let wrap := e.formula.isSum || e.formula.isNeg
    ((if Formula.needsTimes (Formula.bracketedIf wrap e.formula.render) then l.put
        .nothing else l).embed wrap (shown e)).sums =
      l.sums + e.sums + e.formula.hiddenMinuses +
        if !e.formula.isNeg && e.formula.leadsWithMinus then 1 else 0 := by
  intro wrap
  have hsum : e.formula.isSum = true → wrap = true := fun h => by simp [wrap, h]
  by_cases htimes : Formula.needsTimes (Formula.bracketedIf wrap e.formula.render) = true
  · -- the factor stands behind `\times`, so it has brackets or no minus in front
    have hminus : (!e.formula.isNeg && e.formula.leadsWithMinus) = false := by
      cases hleads : e.formula.leadsWithMinus with
      | false => simp
      | true =>
          cases hneg : e.formula.isNeg with
          | true => rfl
          | false =>
              have hwrap : wrap = false := by
                simp [wrap, hneg, Formula.isSum_eq_false_of_leadsWithMinus hleads]
              rw [hwrap, Formula.bracketedIf, if_neg Bool.false_ne_true,
                needsTimes_of_leadsWithMinus hleads] at htimes
              cases htimes
    have hready : (l.put .nothing).Ready := .inl rfl
    rw [if_pos htimes, sums_embed hready hstart fun _ => hshown hready fun _ =>
      rfl, sums_put, hminus]
    simp [put, Last.expr?]
  · rw [if_neg htimes, sums_embed hl.ready hstart fun hwrap => hshown hl.ready fun h => ?_]
    · -- the minus is hidden if there is one and the factor has no brackets
      cases hleads : e.formula.leadsWithMinus with
      | false => simp
      | true =>
          have hwrap : wrap = e.formula.isNeg := by
            simp [wrap, Formula.isSum_eq_false_of_leadsWithMinus hleads]
          rw [hwrap]
          cases e.formula.isNeg <;> simp [last_ne_nothing hl]
    · rw [hsum h] at hwrap
      cases hwrap

/-- Fractions and powers are read as one factor, whatever is in them. -/
theorem sums_whole {o : Operation} (ho : o = .div ∨ o = .pow) {a b : Expr} {l : Line} (hl : l.Ready)
    (hstartA : (shown a {}).sums = a.sums + a.formula.hiddenMinuses)
    (hstartB : (shown b {}).sums = b.sums + b.formula.hiddenMinuses) :
    (shown (.binary o a b) l).sums =
      l.sums + a.sums + a.formula.hiddenMinuses + b.sums + b.formula.hiddenMinuses := by
  obtain ⟨x, y, hx, hy, hput⟩ := exists_shown_factor ho a b hl
  have hnone : o.sums = 0 := by
    rcases ho with rfl | rfl <;> rfl
  rw [hput, sums_put, Last.expr?, Option.elim_some, Expr.sums, sums_close hx, sums_close hy,
    hstartA, hstartB, hnone]
  omega

/-- The right side of a sum or difference is read behind it, on a line that ends with the left
side. -/
theorem sums_right {s : Sign} {o : Operation} (ho : o.sums = 1) {wrap : Bool} {b : Expr}
    {left : Line} (hleft : left.Ended)
    (hstart : (shown b {}).sums = b.sums + b.formula.hiddenMinuses)
    (hshown : ∀ {l : Line}, l.Ready → (b.formula.isSum = true → l.last = .nothing) →
      (shown b l).sums = l.sums + b.sums + b.formula.hiddenMinuses + if l.last ≠ .nothing ∧
      b.formula.leadsWithMinus = true then 1 else 0) :
    ((left.behind s o).embed wrap (shown b)).sums =
        left.sums + 1 + b.sums + b.formula.hiddenMinuses := by
  have hlast : (left.behind s o).last = .nothing := last_behind hleft.ready ..
  rw [sums_embed (.inl hlast) hstart fun _ => hshown (.inl hlast) fun _ => hlast,
    sums_behind hleft.ready _ ho]
  simp [hlast, last_ne_nothing hleft]

/-- **Sums and differences.** Reading a rendering adds those of the tree, and one for each minus
that stands right behind a factor. -/
theorem sums_shown (e : Expr) {l : Line} (hl : l.Ready)
    (hsum : e.formula.isSum = true → l.last = .nothing) :
    (shown e l).sums = l.sums + e.sums + e.formula.hiddenMinuses +
      if l.last ≠ .nothing ∧ e.formula.leadsWithMinus = true then 1 else 0 := by
  induction e generalizing l with
  | number text =>
      simp [shown, sums_put, Last.expr?, Expr.sums, Expr.formula, Formula.hiddenMinuses,
      Formula.leadsWithMinus]
  | letter c => simp [shown, sums_put, Last.expr?, Expr.sums, Expr.formula, Formula.hiddenMinuses,
      Formula.leadsWithMinus]
  | signed s a ih =>
      cases s with
      | plus => exact ih hl hsum
      | minus =>
          have hstart : (shown a {}).sums = a.sums + a.formula.hiddenMinuses := by
            simpa using ih ready_empty fun _ => rfl
          have hlast : (l.behind .minus .sub).last = .nothing := last_behind hl ..
          rw [shown, sums_embed (.inl hlast) hstart fun _ => ih (.inl hlast) fun _ => hlast,
            sums_behind hl _ rfl]
          simp only [Expr.sums, Expr.formula, Formula.hiddenMinuses, Formula.leadsWithMinus, hlast,
            ne_eq, not_true_eq_false, false_and, if_false, and_true, ite_not]
          omega
  | binary o a b ihA ihB =>
      have hstartA : (shown a {}).sums = a.sums + a.formula.hiddenMinuses := by
        simpa using ihA ready_empty fun _ => rfl
      have hstartB : (shown b {}).sums = b.sums + b.formula.hiddenMinuses := by
        simpa using ihB ready_empty fun _ => rfl
      cases o with
      | add | sub =>
          have hnothing : l.last = .nothing := hsum rfl
          rw [shown, sums_right rfl (ended_shown a hl) hstartB ihB, ihA hl fun _ => hnothing]
          simp only [Expr.sums, Expr.formula, Operation.op, Operation.sums, Formula.hiddenMinuses,
            Formula.leadsWithMinus, hnothing, ne_eq, not_true_eq_false, false_and, if_false]
          omega
      | mul =>
          have hleft := sums_embed hl hstartA fun hwrap =>
            ihA hl fun hsumA => absurd hsumA (Bool.eq_false_iff.1 hwrap)
          have hwhole : (shown (.binary .mul a b) l).sums = _ :=
            sums_factor (Ended.embed hl fun _ => ended_shown a) hstartB ihB
          rw [hwhole, hleft]
          cases hleads : a.formula.leadsWithMinus with
          | false =>
              simp only [Expr.sums, Expr.formula, Operation.op, Operation.sums,
                Formula.hiddenMinuses, Formula.leadsWithMinus, hleads,
                Bool.false_eq_true, and_false, if_false]
              omega
          | true =>
              simp only [Expr.sums, Expr.formula, Operation.op, Operation.sums,
                Formula.hiddenMinuses, Formula.leadsWithMinus, hleads,
                Formula.isSum_eq_false_of_leadsWithMinus hleads, and_true]
              omega
      | div | pow =>
          rw [sums_whole (by simp) hl hstartA hstartB]
          simp only [Expr.sums, Expr.formula, Operation.op, Operation.sums, Formula.hiddenMinuses,
            Formula.leadsWithMinus, Bool.false_eq_true, and_false, if_false]
          omega

end Line

/-! ## §4  Values -/

namespace Line

/-- Whether a sum can be read on a line as it is: nothing of a term has been read, and if there is a
sum before it, it is added. -/
def AddsSum (l : Line) : Prop :=
  l.signs = [] ∧ l.factors = none ∧ l.last = .nothing ∧
    ∀ before o, l.sum = some (before, o) → o = .add

theorem addsSum_empty : AddsSum {} := ⟨rfl, rfl, rfl, nofun⟩

/-- What a line says when the rendering of a tree has been read on it: what it says with the tree as
one more factor, be it the last one or not. Only a sum can have no factor behind it. -/
structure Shows (l l' : Line) (e : Expr) (isSum : Bool) : Prop where
  close : ∀ r, l'.close = some r → SameValue r (l.plug e)
  plug : isSum = false → ∀ x, SameValue (l'.plug x) (l.plug (.binary .mul e x))

theorem shows_put {l : Line} {last : Last} {r e : Expr} (hlast : last.expr? = some r)
    (h : SameValue r e) (isSum : Bool) : Shows l (l.put last) e isSum where
  close r' hr' := by
    rw [close_put hlast] at hr'
    cases hr'
    exact (h.times l.product).around l
  plug _ x := (plug_put hlast x).trans (((h.binary .mul (.refl x)).times l.product).around l)

theorem Shows.congr {l l' : Line} {e d : Expr} {isSum : Bool} (h : Shows l l' e isSum)
    (hd : SameValue e d) :
    Shows l l' d isSum where
  close r hr := (h.close r hr).trans ((hd.times l.product).around l)
  plug hsum x := (h.plug hsum x).trans (((hd.binary .mul (.refl x)).times l.product).around l)

/-- On an empty line a rendering says what its tree says. -/
theorem Shows.of_empty {l' : Line} {e r : Expr} {isSum : Bool} (h : Shows {} l' e isSum)
    (hr : l'.close = some r) :
    SameValue r e := h.close r hr

/-- What is shown on a line is shown in brackets too. -/
theorem shows_embed {e : Expr} {wrap isSum : Bool} {l : Line} (hl : l.Ready)
    (hstart : Shows {} (shown e {}) e e.formula.isSum)
    (hshown : wrap = false → Shows l (shown e l) e isSum) :
    Shows l (l.embed wrap (shown e)) e isSum := by
  cases wrap with
  | false => exact hshown rfl
  | true =>
      obtain ⟨r, hr, hput⟩ := exists_embed_true e hl
      rw [hput]
      exact shows_put rfl (hstart.of_empty hr) isSum

/-- A sign in front of a term is a sign in front of its next factor. -/
theorem Shows.minus {l l' : Line} {a : Expr} {o : Operation} (hlast : l.last = .nothing)
    (h : Shows (l.behind .minus o) l' a false) : Shows l l' (.signed .minus a) false := by
  have hplug : ∀ x, SameValue ((l.behind .minus o).plug x) (l.plug (.signed .minus x)) := by
    intro x
    have heq : (l.behind .minus o).plug x = l.around (.signed .minus (times l.product x)) := by
      rw [behind_eq_of_nothing hlast]
      show around { l with signs := l.signs ++ [.minus] } (times l.product x) = _
      simp [around, List.foldr_append]
    rw [heq]
    exact (SameValue.minus_times l.product x).around l
  constructor
  · intro r hr
    exact (h.close r hr).trans (hplug a)
  · intro _ x
    have hproduct : SameValue (.signed .minus (.binary .mul a x))
        (.binary .mul (.signed .minus a) x) :=
      .minus_product a x
    exact ((h.plug rfl x).trans (hplug _)).trans ((hproduct.times l.product).around l)

theorem AddsSum.plug_cases {l : Line} (h : l.AddsSum) :
    (∀ x, l.plug x = x) ∨ ∃ before, ∀ x, l.plug x = .binary .add before x := by
  obtain ⟨hsigns, hfactors, hlast, hsum⟩ := h
  have hplug : ∀ x, l.plug x = l.sum.elim x fun before => .binary before.2 before.1 x := by
    intro x
    have hproduct : l.product = none := by rw [product, hlast]; exact hfactors
    simp [plug, around, hsigns, hproduct, times]
  cases hl : l.sum with
  | none => exact .inl fun x => by rw [hplug, hl]; rfl
  | some before =>
      refine .inr ⟨before.1, fun x => ?_⟩
      rw [hplug, hl, Option.elim_some, hsum before.1 before.2 hl]

/-- What is added to or subtracted from the last term of a sum is added to or subtracted from the
sum. -/
theorem Shows.sum {l left l' : Line} {a b r : Expr} {o : Operation} (ho : o = .add ∨ o = .sub)
    (hl : l.AddsSum) {isSum : Bool} (hleft : Shows l left a isSum) (hr : left.close = some r)
    {isSum' : Bool} (h : Shows { sum := some (r, o) } l' b isSum') :
    Shows l l' (.binary o a b) true := by
  refine ⟨fun r' hr' => ?_, nofun⟩
  have hsum : SameValue r' (.binary o (l.plug a) b) :=
    (h.close r' hr').trans ((hleft.close r hr).binary o (.refl b))
  refine hsum.trans ?_
  rcases hl.plug_cases with hplug | ⟨before, hplug⟩
  · rw [hplug, hplug]
    exact .refl _
  · rw [hplug, hplug]
    rcases ho with rfl | rfl
    · exact SameValue.sum_sum before a b
    · exact SameValue.sum_difference before a b

/-- A factor behind a factor makes a product. -/
theorem Shows.product {l left l' : Line} {a b : Expr} (hleft : Shows l left a false)
    {next : Line} (hnext : next.plug = left.plug) (h : Shows next l' b false) :
    Shows l l' (.binary .mul a b) false := by
  constructor
  · intro r hr
    have hr' := h.close r hr
    rw [hnext] at hr'
    exact hr'.trans (hleft.plug rfl b)
  · intro _ x
    have hx := h.plug rfl x
    rw [hnext] at hx
    have hproduct : SameValue (.binary .mul a (.binary .mul b x))
        (.binary .mul (.binary .mul a b) x) :=
      (SameValue.product_product a b x).symm
    exact (hx.trans (hleft.plug rfl _)).trans ((hproduct.times l.product).around l)

/-- Fractions and powers are read as one factor of the sides as they are read. -/
theorem shows_whole {o : Operation} (ho : o = .div ∨ o = .pow) {a b : Expr} {l : Line}
    (hl : l.Ready) (hstartA : Shows {} (shown a {}) a a.formula.isSum)
    (hstartB : Shows {} (shown b {}) b b.formula.isSum) (isSum : Bool) :
    Shows l (shown (.binary o a b) l) (.binary o a b) isSum := by
  obtain ⟨x, y, hx, hy, hput⟩ := exists_shown_factor ho a b hl
  rw [hput]
  exact shows_put rfl ((hstartA.of_empty hx).binary o (hstartB.of_empty hy)) isSum

/-- The right side of a sum is read on a line that has the left side before it. -/
theorem shows_right {s : Sign} {o : Operation} (ho : o = .add ∨ o = .sub) {wrap : Bool} {a b : Expr}
    {l left : Line} (hl : l.AddsSum) (hended : left.Ended) (hleft : Shows l left a a.formula.isSum)
    (hstart : Shows {} (shown b {}) b b.formula.isSum)
    (hshown : ∀ {l : Line}, l.Ready → (b.formula.leadsWithMinus = true → l.last = .nothing) →
      (b.formula.isSum = true → l.AddsSum) → Shows l (shown b l) b b.formula.isSum)
    (hwrap : wrap = false → b.formula.isSum = true → o = .add) :
    Shows l ((left.behind s o).embed wrap (shown b)) (.binary o a b) true := by
  obtain ⟨r, hr⟩ := hended.exists_close
  have hready : Ready { sum := some (r, o) } := .inl rfl
  have hread : Shows { sum := some (r, o) } (embed wrap (shown b) { sum := some (r, o) }) b
      b.formula.isSum := by
    refine shows_embed hready hstart fun hfalse => hshown hready (fun _ => rfl) fun hsumB => ?_
    refine ⟨rfl, rfl, rfl, fun before o' heq => ?_⟩
    cases heq
    exact hwrap hfalse hsumB
  rw [behind_eq_of_close hended hr]
  exact hleft.sum ho hl hr hread

/-- A right factor is read behind the left one, with a sign of the product between them or not. -/
theorem shows_factor {a b : Expr} {l left next : Line} (hleft : Shows l left a false)
    (hready : next.Ready) (hnext : next.plug = left.plug)
    (hhidden : (Expr.binary .mul a b).formula.hiddenMinuses = 0)
    (hstart : Shows {} (shown b {}) b b.formula.isSum)
    (hshown : ∀ {l : Line}, l.Ready → (b.formula.leadsWithMinus = true → l.last = .nothing) →
      (b.formula.isSum = true → l.AddsSum) → Shows l (shown b l) b b.formula.isSum) :
    Shows l (next.embed (b.formula.isSum || b.formula.isNeg) (shown b))
        (.binary .mul a b) false := by
  refine hleft.product hnext (shows_embed hready hstart fun hwrap => ?_)
  obtain ⟨hsum, hneg⟩ := Bool.or_eq_false_iff.1 hwrap
  -- a minus in front of the right factor would be hidden
  have hminus : b.formula.leadsWithMinus = false := by
    cases hleads : b.formula.leadsWithMinus with
    | false => rfl
    | true => simp [Expr.formula, Operation.op, Formula.hiddenMinuses, hneg, hleads] at hhidden
  have hread := hshown hready (fun h => absurd h (Bool.eq_false_iff.1 hminus))
    fun h => absurd h (Bool.eq_false_iff.1 hsum)
  rwa [hsum] at hread

/-- **Values.** Where no minus is hidden, a rendering says what its tree says. -/
theorem shows_shown (e : Expr) {l : Line} (hl : l.Ready) (hhidden : e.formula.hiddenMinuses = 0)
    (hminus : e.formula.leadsWithMinus = true → l.last = .nothing)
    (hsum : e.formula.isSum = true → l.AddsSum) : Shows l (shown e l) e e.formula.isSum := by
  induction e generalizing l with
  | number text => exact shows_put rfl (.refl _) _
  | letter c => exact shows_put rfl (.refl _) _
  | signed s a ih =>
      cases s with
      | plus => exact (ih hl hhidden hminus hsum).congr (SameValue.plus a).symm
      | minus =>
          have hlast : (l.behind .minus .sub).last = .nothing := last_behind hl ..
          have hstart : Shows {} (shown a {}) a a.formula.isSum :=
            ih ready_empty hhidden (fun _ => rfl) fun _ => addsSum_empty
          refine Shows.minus (hminus rfl) (shows_embed (.inl hlast) hstart fun hwrap => ?_)
          obtain ⟨hsumA, _⟩ := Bool.or_eq_false_iff.1 hwrap
          have hread := ih (.inl hlast) hhidden (fun _ => hlast) fun h =>
              absurd h (Bool.eq_false_iff.1 hsumA)
          rwa [hsumA] at hread
  | binary o a b ihA ihB =>
      have hhiddenAB : a.formula.hiddenMinuses = 0 ∧ b.formula.hiddenMinuses = 0 := by
        cases o <;> simp_all [Expr.formula, Operation.op, Formula.hiddenMinuses]
      obtain ⟨hhiddenA, hhiddenB⟩ := hhiddenAB
      have hstartA : Shows {} (shown a {}) a a.formula.isSum :=
        ihA ready_empty hhiddenA (fun _ => rfl) fun _ => addsSum_empty
      have hstartB : Shows {} (shown b {}) b b.formula.isSum :=
        ihB ready_empty hhiddenB (fun _ => rfl) fun _ => addsSum_empty
      have hshownB : ∀ {l : Line}, l.Ready → (b.formula.leadsWithMinus = true → l.last = .nothing) →
          (b.formula.isSum = true → l.AddsSum) → Shows l (shown b l) b b.formula.isSum :=
        fun hready => ihB hready hhiddenB
      have hended : (shown a l).Ended := ended_shown a hl
      cases o with
      | add =>
          have hadds : l.AddsSum := hsum rfl
          have hleft := ihA hl hhiddenA (fun _ => hadds.2.2.1) fun _ => hadds
          exact shows_right (.inl rfl) hadds hended hleft hstartB hshownB fun _ _ => rfl
      | sub =>
          have hadds : l.AddsSum := hsum rfl
          have hleft := ihA hl hhiddenA (fun _ => hadds.2.2.1) fun _ => hadds
          refine shows_right (.inr rfl) hadds hended hleft hstartB hshownB fun hfalse hsumB => ?_
          rw [hsumB] at hfalse
          cases hfalse
      | mul =>
          have hleft : Shows l (l.embed a.formula.isSum (shown a)) a false := by
            refine shows_embed hl hstartA fun hwrap => ?_
            have hread := ihA hl hhiddenA hminus fun h => absurd h (Bool.eq_false_iff.1 hwrap)
            rwa [hwrap] at hread
          have hendedLeft : (l.embed a.formula.isSum (shown a)).Ended :=
            Ended.embed hl fun _ => ended_shown a
          rw [shown]
          split
          · exact shows_factor hleft (.inl rfl) rfl hhidden hstartB hshownB
          · exact shows_factor hleft hendedLeft.ready rfl hhidden hstartB hshownB
      | div => exact shows_whole (.inl rfl) hl hstartA hstartB _
      | pow => exact shows_whole (.inr rfl) hl hstartA hstartB _

end Line

/-! ## §5  Typeset texts -/

theorem value_formulaMeaning (e : Expr) : Formula.meaning.value e = .ok e.formula := by
  induction e with
  | number text => rfl
  | letter c => rfl
  | signed s a ih =>
      simp only [Meaning.value, ih]
      cases s <;> rfl
  | binary o a b ihA ihB =>
      simp only [Meaning.value, ihA, ihB]
      rfl

theorem Derives.spelled {p : Phrase} {row : List Token} {e : Expr} (h : Derives p row e) :
    e.Spelled := by
  induction h with
  | ofTerm _ ih | ofUnary _ ih | ofPower _ ih | ofAtom _ ih | sign _ _ ih | bracket _ _ ih =>
      exact ih
  | sum _ _ _ ihLeft ihRight | product _ _ _ ihLeft ihRight | power _ _ ihLeft ihRight =>
      exact ⟨ihLeft, ihRight⟩
  | number hne hnumeric => exact ⟨hne, hnumeric⟩
  | letter hletter => exact hletter

theorem Writes.not_mem_equals {text : List Char} {e : Expr} (h : Writes text e) : '=' ∉ text :=
  equals_not_mem_of_parsed (infixToPostfix_of_writes h)

theorem equationSides_of_not_mem {text : List Char} (h : '=' ∉ text) :
    equationSides text = [text] := by
  induction text with
  | nil => rfl
  | cons c rest ih =>
      rw [List.mem_cons, not_or] at h
      rw [equationSides, ih h.2]
      exact if_neg (Ne.symm h.1)

/-- An expression is typeset as its tree is rendered. -/
theorem typeset_of_writes {text : List Char} {e : Expr} (h : Writes text e) :
    typeset text = .ok ("$$".toList ++ e.formula.render ++ "$$".toList) := by
  have hformula : Formula.ofExpression text = .ok e.formula := by
    rw [Formula.ofExpression, infixToPostfix_of_writes h]
    exact (Formula.meaning.run_postorder e).trans (value_formulaMeaning e)
  rw [typeset, equationSides_of_not_mem h.not_mem_equals]
  simp [hformula, bind, Except.bind, pure, Except.pure, List.intercalate]

/-- **A typeset formula shows what is typeset, up to hidden minuses.** The typeset form of an
expression can be read. What is read has as many sums and differences as the expression, and one
more for each minus that stands right behind a factor; without such a minus it has the value of the
expression. -/
theorem readFormula_typeset {text : List Char} {e : Expr} (h : Writes text e) :
    ∃ tex r, typeset text = .ok ("$$".toList ++ tex ++ "$$".toList) ∧ readFormula tex = some r ∧
      r.sums = e.sums + e.formula.hiddenMinuses ∧
          (e.formula.hiddenMinuses = 0 → SameValue r e) := by
  have ⟨row, hrow, _⟩ := h
  obtain ⟨r, hr⟩ := (Line.ended_shown e Line.ready_empty).exists_close
  refine ⟨e.formula.render, r, typeset_of_writes h, ?_, ?_, ?_⟩
  · rw [readFormula_render hrow.spelled, hr]
  · have hsums := Line.sums_shown e Line.ready_empty fun _ => rfl
    rw [Line.sums_close hr, hsums]
    simp
  · intro hhidden
    exact (Line.shows_shown e Line.ready_empty hhidden (fun _ => rfl) fun _ =>
      Line.addsSum_empty).of_empty hr

/-- The tree of `-x*(y-3)/2^-x`. -/
def signedQuotient : Expr :=
  .binary .div (.binary .mul (.signed .minus (.letter 'x'))
    (.binary .sub (.letter 'y') (.number ['3'])))
    (.binary .pow (.number ['2']) (.signed .minus (.letter 'x')))

theorem signedQuotient_readFormula_typeset :
    Writes "-x*(y-3)/2^-x".toList signedQuotient ∧
      ∃ tex r, typeset "-x*(y-3)/2^-x".toList = .ok ("$$".toList ++ tex ++ "$$".toList) ∧
        readFormula tex = some r ∧ r.sums = 1 ∧ SameValue r signedQuotient := by
  have hx : Derives .atom [.letter 'x'] (.letter 'x') := .letter (by decide)
  have hy : Derives .atom [.letter 'y'] (.letter 'y') := .letter (by decide)
  have htwo : Derives .atom [.number ['2']] (.number ['2']) :=
    .number (by decide) (List.all_eq_true.1 rfl)
  have hthree : Derives .atom [.number ['3']] (.number ['3']) :=
    .number (by decide) (List.all_eq_true.1 rfl)
  have hminus : Derives .unary [.op .neg, .letter 'x'] (.signed .minus (.letter 'x')) :=
    .sign .minus (.ofPower (.ofAtom hx))
  have hdifference := Derives.sum (.ofTerm (.ofUnary (.ofPower (.ofAtom hy)))) (.inr rfl)
    (.ofUnary (.ofPower (.ofAtom hthree)))
  have hbracket : ('(', ')') ∈ bracketPairs := by decide
  have hproduct := Derives.product (.ofUnary hminus) (.inl rfl)
    (.ofPower (.ofAtom (.bracket hbracket hdifference)))
  have hquotient := hproduct.product (.inr rfl) (.ofPower (.power htwo hminus))
  have hwrites : Writes "-x*(y-3)/2^-x".toList signedQuotient := ⟨_, .ofTerm hquotient, by decide⟩
  obtain ⟨tex, r, htypeset, hread, hsums, hvalue⟩ := readFormula_typeset hwrites
  exact ⟨hwrites, tex, r, htypeset, hread, hsums, hvalue rfl⟩

/-- The minus of a product behind a factor: `a*(-x*y)` is typeset `a-xy`, which is read as a
difference. Where all letters are one, the product is minus one and the difference is zero. -/
theorem signedProduct_shown_as_difference :
    Writes "a*(-x*y)".toList
        (.binary .mul (.letter 'a') (.binary .mul (.signed .minus (.letter 'x')) (.letter 'y'))) ∧
      typeset "a*(-x*y)".toList = .ok "$$a-xy$$".toList ∧
      readFormula "a-xy".toList =
        some (.binary .sub (.letter 'a') (.binary .mul (.letter 'x') (.letter 'y'))) ∧
      Expr.valueAt (fun _ => (1 : ℚ))
        (.binary .mul (.letter 'a') (.binary .mul (.signed .minus (.letter 'x')) (.letter 'y'))) =
          some (-1) ∧
      Expr.valueAt (fun _ => (1 : ℚ))
        (.binary .sub (.letter 'a') (.binary .mul (.letter 'x') (.letter 'y'))) = some 0 := by
  have ha : Derives .atom [.letter 'a'] (.letter 'a') := .letter (by decide)
  have hx : Derives .atom [.letter 'x'] (.letter 'x') := .letter (by decide)
  have hy : Derives .atom [.letter 'y'] (.letter 'y') := .letter (by decide)
  have hinner := Derives.product (.ofUnary (.sign .minus (.ofPower (.ofAtom hx)))) (.inl rfl)
    (.ofPower (.ofAtom hy))
  have hbracket : ('(', ')') ∈ bracketPairs := by decide
  have hproduct := Derives.product (.ofUnary (.ofPower (.ofAtom ha))) (.inl rfl)
    (.ofPower (.ofAtom (.bracket hbracket (.ofTerm hinner))))
  refine ⟨⟨_, .ofTerm hproduct, by decide⟩, by decide +kernel, by decide +kernel, ?_, ?_⟩
  · simp [Expr.valueAt, Operation.value, Sign.value]
  · simp [Expr.valueAt, Operation.value]

end InkAlgebra

import InkAlgebra.Error
import InkAlgebra.Layout.Geometry
import InkAlgebra.Layout.Glyph
import InkAlgebra.Layout.Label

/-!
# Symbols and pieces of a formula

A detection is a label in a box. As a leaf of the layout it has two boxes: the ink that was
detected, and the box that positions are judged by, which leaves out a descender. Leaves are sorted
from left to right; the pieces built from them, fractions and exponents, remember which run of
leaves they cover.

§1 is the leaf, §2 the piece, §3 how pieces stand to each other.
-/

namespace InkAlgebra

/-! ## §1  Leaves -/

structure Detection (κ : Type) where
  label : String
  confidence : κ
  box : Box κ
deriving BEq, Repr

structure Leaf (κ : Type) where
  text : Label
  box : Box κ
  ink : Box κ
deriving Repr

def Leaf.ofDetection {κ : Type} [Scalar κ] (g : Geometry κ) (d : Detection κ) : Leaf κ :=
  let label : Label := d.label.toList
  { text := label
    box := if Label.hasDescender label then d.box.trimmedFromTop g.descenderTrim else d.box
    ink := d.box }

/-! ## §2  Pieces -/

/-- A run of places, the last one left out; no run is empty. -/
structure Span where
  start : Nat
  stop : Nat
  start_lt_stop : start < stop
deriving DecidableEq, Repr

namespace Span

def single (i : Nat) : Span := ⟨i, i + 1, Nat.lt_succ_self i⟩

def join (a b : Span) : Span :=
  ⟨min a.start b.start, max a.stop b.stop,
    Nat.lt_of_le_of_lt (Nat.min_le_left ..)
      (Nat.lt_of_lt_of_le a.start_lt_stop (Nat.le_max_left ..))⟩

def isInside (a b : Span) : Bool := b.start ≤ a.start && a.stop ≤ b.stop

def slice {β : Type} (s : Span) (entries : List β) : List β :=
  (entries.drop s.start).take (s.stop - s.start)

@[simp] theorem start_join (a b : Span) : (a.join b).start = min a.start b.start := rfl

@[simp] theorem stop_join (a b : Span) : (a.join b).stop = max a.stop b.stop := rfl

theorem isInside_iff {a b : Span} : a.isInside b ↔ b.start ≤ a.start ∧ a.stop ≤ b.stop := by
  simp [isInside]

end Span

/-- Text put together from a run of leaves. -/
structure Composite (κ : Type) where
  text : List Char
  box : Box κ
  span : Span
deriving Repr

inductive Node (κ : Type) where
  | plain (index : Nat) (leaf : Leaf κ)
  | fraction (c : Composite κ)
  | exponent (c : Composite κ)
deriving Repr

namespace Node

variable {κ : Type}

def text : Node κ → List Char
  | plain _ leaf => leaf.text
  | fraction c | exponent c => c.text

def box : Node κ → Box κ
  | plain _ leaf => leaf.box
  | fraction c | exponent c => c.box

/-- The drawn extent of a node; for a composite that is the box it is judged by. -/
def ink : Node κ → Box κ
  | plain _ leaf => leaf.ink
  | fraction c | exponent c => c.box

def span : Node κ → Span
  | plain i _ => .single i
  | fraction c | exponent c => c.span

def isOperator (n : Node κ) : Bool := Label.isOperator n.text

end Node

/-! ## §3  Positions of nodes -/

/-- What the layout goes by: thresholds and glyph sizes. -/
structure Page (κ : Type) where
  geometry : Geometry κ
  glyphs : GlyphMetrics κ

namespace Page

variable {κ : Type} [Coordinate κ]

/-- The nominal area of a node's glyph, if it is one known character of positive size. -/
def nominalArea? (p : Page κ) (n : Node κ) : Option κ :=
  match n.text with
  | [c] => ((p.glyphs c).map fun (w, h) => w * h).filter fun area => 0 < area
  | _ => none

/-- A script by its size: each drawn area is measured against the nominal one of its glyph, and the
script comes out at a smaller scale than the base. It must also end above the base's bottom. -/
def isSmallScript (p : Page κ) (base script : Node κ) : Bool :=
  if base.box.bottom - base.box.height * p.geometry.smallScriptRise ≤ script.box.bottom then false
  else
    match p.nominalArea? base, p.nominalArea? script with
    | some baseArea, some scriptArea =>
      let baseScale := base.ink.area / baseArea
      let scriptScale := script.ink.area / scriptArea
      0 < baseScale && scriptScale / baseScale < p.geometry.smallScriptRatio
    | _, _ => false

/-- Whether a node counts as raised from a base, by position or by size. -/
def isRaised (p : Page κ) (base n : Node κ) : Bool :=
  p.geometry.isSuperscript base.box n.box || p.isSmallScript base n

/-- Whether a node can be the first one of a base's script: both labels allow it, and the node is
either above the base at a steep angle or a script by its size. -/
def isExponent (p : Page κ) (base script : Node κ) : Bool :=
  Label.canCarryScript base.text && Label.canStartScript script.text &&
    ((p.geometry.isSuperscript base.box script.box &&
        p.geometry.risesSteeply base.box script.box) ||
      p.isSmallScript base script)

/-- The failure of a layout that nests too deep: it is noticed at the first level too many. -/
def tooDeep (p : Page κ) : LimitPassed := ⟨p.geometry.maxDepth + 1, p.geometry.maxDepth⟩

end Page

/-- Text in brackets, if it holds one of some operators. -/
def bracketedIfAny (operators text : List Char) : List Char :=
  if text.any (· ∈ operators) then '(' :: text ++ [')'] else text

end InkAlgebra

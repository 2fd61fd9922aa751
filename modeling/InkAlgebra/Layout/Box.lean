import InkAlgebra.Number.Scalar

/-!
# Boxes

Axis-parallel rectangles on the page, kept as center and size; `y` grows downwards, so that the top
edge has the smaller coordinate.
-/

namespace InkAlgebra

structure Box (κ : Type) where
  centerX : κ
  centerY : κ
  width : κ
  height : κ
deriving BEq, DecidableEq, Repr

namespace Box

variable {κ : Type}

section

variable [Scalar κ]

def top (b : Box κ) : κ := b.centerY - Scalar.half b.height

def bottom (b : Box κ) : κ := b.centerY + Scalar.half b.height

def left (b : Box κ) : κ := b.centerX - Scalar.half b.width

def right (b : Box κ) : κ := b.centerX + Scalar.half b.width

def area (b : Box κ) : κ := b.width * b.height

def ofEdges (left top right bottom : κ) : Box κ :=
  let width := right - left
  let height := bottom - top
  ⟨left + Scalar.half width, top + Scalar.half height, width, height⟩

/-- The upper part of a box, of the given share of its height. -/
def trimmedFromTop (b : Box κ) (share : κ) : Box κ :=
  ofEdges b.left b.top b.right (b.top + b.height * share)

end

def union [Coordinate κ] (a b : Box κ) : Box κ :=
  ofEdges (Coordinate.lesser a.left b.left) (Coordinate.lesser a.top b.top)
    (Coordinate.greater a.right b.right) (Coordinate.greater a.bottom b.bottom)

end Box

end InkAlgebra

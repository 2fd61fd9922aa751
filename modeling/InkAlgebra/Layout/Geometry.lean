import InkAlgebra.Layout.Box

/-!
# Geometry settings and positions

When one box counts as raised, lowered, inline or steeply above another. All thresholds but the
angle are shares of a height.
-/

namespace InkAlgebra

structure Geometry (κ : Type) where
  /-- A script ends above this share of its base's height, from the top. -/
  superscript : κ
  /-- A box that starts below this share of the previous one is lowered. -/
  lowered : κ
  /-- A small script ends above its base's bottom by this share of the base's height. -/
  smallScriptRise : κ
  /-- The least angle from base to script, in degrees. -/
  scriptAngle : κ
  /-- The share of its height that a label with a descender keeps. -/
  descenderTrim : κ
  /-- A small script is drawn below this ratio of its base's scale. -/
  smallScriptRatio : κ
  /-- An operator centered below this share of a base's height is on the base's line. -/
  inlineOperator : κ
  /-- How deep fractions and scripts may nest. -/
  maxDepth : Nat
deriving BEq, Repr

namespace Geometry

variable {κ : Type} [Coordinate κ]

/-- The bottom of `script` is on or above the superscript line of `base`. -/
def isSuperscript (g : Geometry κ) (base script : Box κ) : Bool :=
  script.bottom ≤ base.top + base.height * g.superscript

/-- The top of `box` is on or below the line that marks the lower part of `previous`. -/
def isLowered (g : Geometry κ) (previous box : Box κ) : Bool :=
  previous.top + previous.height * g.lowered ≤ box.top

/-- The line from the center of `base` to that of `script` rises at the script angle or more. -/
def risesSteeply (g : Geometry κ) (base script : Box κ) : Bool :=
  Coordinate.slopeAtLeast (base.centerY - script.centerY) (script.centerX - base.centerX)
    (Coordinate.tanDegrees g.scriptAngle)

/-- The center of `operator` is low enough to belong to the line of `base`. -/
def isInline (g : Geometry κ) (base operator : Box κ) : Bool :=
  base.top + base.height * g.inlineOperator ≤ operator.centerY

end Geometry

end InkAlgebra

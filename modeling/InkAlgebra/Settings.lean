import InkAlgebra.Json.Decode
import InkAlgebra.Json.Write
import InkAlgebra.Layout.Geometry
import InkAlgebra.Number.Binary64
import InkAlgebra.Roots.Settings

/-!
# Settings as data

The settings of a run are a record of two records, one for the layout and one for the solver. In a
settings file every part may be left out and then has its default.
-/

namespace InkAlgebra

namespace Geometry

def standard : Geometry Float where
  superscript := 0.5
  lowered := 0.6
  smallScriptRise := 0.25
  scriptAngle := 20
  descenderTrim := 0.7
  smallScriptRatio := 0.7
  inlineOperator := 0.3
  maxDepth := 64

def fieldNames : List String :=
  ["superscript_threshold", "subscript_threshold", "quarter_superscript_threshold",
    "exponent_angle_threshold_degrees", "label_with_sub_threshold",
    "exponent_base_size_ratio_threshold", "inline_operator_threshold", "max_depth"]

def toJson (g : Geometry Float) : Json :=
  .object (List.zip (fieldNames.map String.toList)
    [.ofFloat g.superscript, .ofFloat g.lowered, .ofFloat g.smallScriptRise,
      .ofFloat g.scriptAngle, .ofFloat g.descenderTrim, .ofFloat g.smallScriptRatio,
      .ofFloat g.inlineOperator, .ofNat g.maxDepth])

def ofJson? (v : Json) : Option (Geometry Float) := do
  match ← v.record? fieldNames with
  | [superscript, lowered, rise, angle, trim, ratio, inlined, depth] =>
    return {
      superscript := ← Json.orDefault Json.float? standard.superscript superscript
      lowered := ← Json.orDefault Json.float? standard.lowered lowered
      smallScriptRise := ← Json.orDefault Json.float? standard.smallScriptRise rise
      scriptAngle := ← Json.orDefault Json.float? standard.scriptAngle angle
      descenderTrim := ← Json.orDefault Json.float? standard.descenderTrim trim
      smallScriptRatio := ← Json.orDefault Json.float? standard.smallScriptRatio ratio
      inlineOperator := ← Json.orDefault Json.float? standard.inlineOperator inlined
      maxDepth := ← Json.orDefault (Json.nat? (UInt64.size - 1)) standard.maxDepth depth }
  | _ => none

end Geometry

namespace SolverSettings

def fieldNames : List String := ["epsilon", "max_degree", "max_bracket_steps"]

def toJson (s : SolverSettings Float) : Json :=
  .object (List.zip (fieldNames.map String.toList)
    [.ofFloat s.epsilon, .ofNat s.maxDegree.toNat, .ofNat s.maxBracketSteps.toNat])

def word? (v : Json) : Option UInt32 := (v.nat? (UInt32.size - 1)).map UInt32.ofNat

def ofJson? (v : Json) : Option (SolverSettings Float) := do
  let default : SolverSettings Float := standard
  match ← v.record? fieldNames with
  | [epsilon, degree, steps] =>
    return {
      epsilon := ← Json.orDefault Json.float? default.epsilon epsilon
      maxDegree := ← Json.orDefault word? default.maxDegree degree
      maxBracketSteps := ← Json.orDefault word? default.maxBracketSteps steps }
  | _ => none

end SolverSettings

structure RunSettings where
  geometry : Geometry Float := .standard
  solver : SolverSettings Float := .standard
deriving BEq, Repr

namespace RunSettings

def toJson (s : RunSettings) : Json :=
  .object [("geometry".toList, s.geometry.toJson), ("solver".toList, s.solver.toJson)]

def ofJson? (v : Json) : Option RunSettings := do
  match ← v.record? ["geometry", "solver"] with
  | [geometry, solver] =>
    return {
      geometry := ← Json.orDefault Geometry.ofJson? .standard geometry
      solver := ← Json.orDefault SolverSettings.ofJson? .standard solver }
  | _ => none

end RunSettings

end InkAlgebra

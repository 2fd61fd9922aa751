import InkAlgebra.Number.Scalar

/-!
# Nominal glyph sizes

How large the glyph of a character is in one common font. A symbol drawn smaller than its
neighbour, each measured against its own glyph, is a script. The reference sizes are the Helvetica
bounding boxes, in thousandths of the font size.
-/

namespace InkAlgebra

/-- Nominal width and height of the characters whose glyph is known. -/
abbrev GlyphMetrics (κ : Type) := Char → Option (κ × κ)

namespace GlyphMetrics

/-- The edges of a glyph: left, bottom, right, top. -/
def helveticaEdges? : Char → Option (Int × Int × Int × Int)
  | '0' => some (37, -19, 519, 703)
  | '1' => some (101, 0, 359, 703)
  | '2' => some (26, 0, 507, 703)
  | '3' => some (34, -19, 522, 703)
  | '4' => some (25, 0, 523, 703)
  | '5' => some (32, -19, 514, 688)
  | '6' => some (38, -19, 518, 703)
  | '7' => some (37, 0, 523, 688)
  | '8' => some (38, -19, 517, 703)
  | '9' => some (42, -19, 514, 703)
  | 'a' => some (36, -15, 530, 538)
  | 'b' => some (58, -15, 517, 718)
  | 'c' => some (30, -15, 477, 538)
  | 'd' => some (35, -15, 499, 718)
  | 'e' => some (40, -15, 516, 538)
  | 'f' => some (14, 0, 262, 728)
  | 'g' => some (35, -220, 499, 538)
  | 'h' => some (65, 0, 491, 718)
  | 'i' => some (67, 0, 155, 718)
  | 'j' => some (-16, -210, 155, 718)
  | 'k' => some (67, 0, 501, 718)
  | 'l' => some (67, 0, 155, 718)
  | 'm' => some (65, 0, 769, 538)
  | 'n' => some (65, 0, 491, 538)
  | 'o' => some (35, -14, 521, 538)
  | 'p' => some (58, -207, 517, 538)
  | 'q' => some (35, -207, 494, 538)
  | 'r' => some (77, 0, 332, 538)
  | 's' => some (32, -15, 464, 538)
  | 't' => some (14, -7, 257, 669)
  | 'u' => some (68, -15, 489, 523)
  | 'v' => some (8, 0, 492, 523)
  | 'w' => some (14, 0, 709, 523)
  | 'x' => some (11, 0, 490, 523)
  | 'y' => some (11, -214, 489, 523)
  | 'z' => some (31, 0, 469, 523)
  | '(' => some (68, -207, 299, 733)
  | ')' => some (34, -207, 265, 733)
  | '[' => some (63, -196, 250, 722)
  | ']' => some (28, -196, 215, 722)
  | '\x7b' | '\x7d' => some (42, -196, 292, 722)
  | '+' => some (34, 0, 550, 505)
  | '-' => some (44, 232, 289, 322)
  | _ => none

/-- The reference sizes; capitals share one. -/
def reference {κ : Type} [Scalar κ] : GlyphMetrics κ := fun c =>
  match helveticaEdges? c with
  | some (left, bottom, right, top) =>
    some (Scalar.ofNat (right - left).toNat, Scalar.ofNat (top - bottom).toNat)
  | none => if c.isUpper then some (Scalar.ofNat 640, Scalar.ofNat 718) else none

end GlyphMetrics

end InkAlgebra

import InkAlgebra.Layout.Node

/-!
# Fractions

Every `-` may be a fraction bar. The leaves whose centers lie within its width are its numerator or
its denominator, by the side they are on; with both sides occupied the bar is a candidate, covering
all leaves from its leftmost to its rightmost member. Of nested candidates only the outermost are
put together at this level: the inner ones are found again when a side is.
-/

namespace InkAlgebra

/-- A bar with both sides occupied. -/
structure Candidate (κ : Type) where
  bar : Leaf κ
  numerator : List (Leaf κ)
  denominator : List (Leaf κ)
  span : Span
deriving Repr

namespace Candidate

variable {κ : Type}

/-- Takes one more candidate to those kept so far: not if it lies inside one of them, and otherwise
in place of all that lie inside it. Of equal runs the first stays. -/
def keepOutermost (kept : List (Candidate κ)) (c : Candidate κ) : List (Candidate κ) :=
  if kept.any fun d => c.span.isInside d.span then kept
  else kept.filter (fun d => !d.span.isInside c.span) ++ [c]

theorem mem_of_mem_keepOutermost {kept : List (Candidate κ)} {c d : Candidate κ}
    (h : d ∈ keepOutermost kept c) : d ∈ kept ∨ d = c := by
  rw [keepOutermost] at h
  split at h
  · exact .inl h
  · rcases List.mem_append.1 h with h | h
    · exact .inl (List.mem_filter.1 h).1
    · exact .inr (List.mem_singleton.1 h)

def outermost (candidates : List (Candidate κ)) : List (Candidate κ) :=
  candidates.foldl keepOutermost []

def operators : List Char := ['+', '*', '/', '=', '^', '-']

variable [Coordinate κ]

/-- The smallest run over a place and others. -/
def spanOf (place : Nat) (places : List Nat) : Span :=
  places.foldl (fun span i => span.join (.single i)) (.single place)

/-- The leaves beside a bar, with their places, that are within its width on one side. -/
def sideOf (bar : Leaf κ) (place : Nat) (onSide : Leaf κ → Bool) (leaves : List (Leaf κ)) :
    List (Leaf κ × Nat) :=
  leaves.zipIdx.filter fun (leaf, i) =>
    i ≠ place && !(leaf.box.centerX < bar.box.left || bar.box.right < leaf.box.centerX) &&
      onSide leaf

def ofBar? (leaves : List (Leaf κ)) (bar : Leaf κ) (place : Nat) : Option (Candidate κ) :=
  let above := sideOf bar place (fun leaf => leaf.box.centerY < bar.box.centerY) leaves
  let below := sideOf bar place (fun leaf => bar.box.centerY < leaf.box.centerY) leaves
  if above.isEmpty || below.isEmpty then none
  else some
    { bar
      numerator := above.map (·.1)
      denominator := below.map (·.1)
      span := spanOf place ((above ++ below).map (·.2)) }

/-- All candidates of a row of leaves, by the place of their bars. -/
def all (leaves : List (Leaf κ)) : List (Candidate κ) :=
  leaves.zipIdx.filterMap fun (leaf, i) =>
    if leaf.text = ['-'] then ofBar? leaves leaf i else none

/-- The box around the ink of all leaves a candidate covers. -/
def inkBox (leaves : List (Leaf κ)) (c : Candidate κ) : Box κ :=
  match c.span.slice leaves with
  | [] => c.bar.ink
  | first :: rest => rest.foldl (fun box leaf => box.union leaf.ink) first.ink

/-- The fraction of a candidate, given how a row of leaves is assembled. -/
def assemble (inner : List (Leaf κ) → Except LimitPassed (List Char)) (leaves : List (Leaf κ))
    (c : Candidate κ) : Except LimitPassed (Composite κ) := do
  let numerator ← inner c.numerator
  let denominator ← inner c.denominator
  return {
    text := bracketedIfAny operators numerator ++ '/' :: bracketedIfAny operators denominator
    box := c.inkBox leaves
    span := c.span }

end Candidate

variable {κ : Type} [Coordinate κ]

/-- The outermost fractions of a sorted row of leaves, from left to right. -/
def findFractions (inner : List (Leaf κ) → Except LimitPassed (List Char))
    (leaves : List (Leaf κ)) : Except LimitPassed (List (Composite κ)) := do
  let candidates := Candidate.outermost (Candidate.all leaves)
  let fractions ← candidates.mapM (Candidate.assemble inner leaves)
  return fractions.mergeSort fun a b => a.span.start ≤ b.span.start

/-- The row of leaves, from a given place on, with each fraction in place of the leaves it covers. A
fraction that starts inside another one is left out. -/
def splice : (place : Nat) → List (Leaf κ) → List (Composite κ) → List (Node κ)
  | _, [], _ => []
  | i, leaf :: rest, fractions =>
    match fractions.dropWhile fun f => f.span.start < i with
    | f :: later =>
      if f.span.start = i then
        .fraction f :: splice f.span.stop (rest.drop (f.span.stop - (i + 1))) later
      else .plain i leaf :: splice (i + 1) rest (f :: later)
    | [] => .plain i leaf :: splice (i + 1) rest []
termination_by _ leaves => leaves.length

end InkAlgebra

import InkAlgebra.Layout.Node

/-!
# Scripts

From the first node of a script the scan goes right as long as the nodes stay raised from the base.
It stops at `=`, at a node that is lowered or no longer raised (a decimal separator passes if the
digits behind it are still on the script's line), and at an operator that belongs to the base's line
or leads back to it. A script of the script is scanned first, and stepped over.
-/

namespace InkAlgebra.Page

variable {κ : Type} [Coordinate κ]

/-- Whether a decimal separator goes on with the script: the node behind it is not lowered from the
last node on the script's line. -/
def separatorContinues (p : Page κ) (anchor separator : Node κ) (after : Option (Node κ)) : Bool :=
  Label.isDecimalSeparator separator.text &&
    after.any fun a => !p.geometry.isLowered anchor.box a.box

/-- Whether an operator ends the script: it stands on the base's line, or what follows it is not
raised. -/
def operatorEnds (p : Page κ) (base operator : Node κ) (after : Option (Node κ)) : Bool :=
  operator.isOperator &&
    ((p.geometry.isInline base.box operator.box &&
        !p.geometry.isSuperscript base.box operator.box) ||
      after.any fun a => !p.isRaised base a)

/-- Whether a script ends before a node. The anchor is the last node on the script's own line. -/
def scriptEndsBefore (p : Page κ) (base anchor n : Node κ) (after : Option (Node κ)) : Bool :=
  n.text = ['='] ||
    ((p.geometry.isLowered anchor.box n.box || !p.isRaised base n) &&
      !p.separatorContinues anchor n after) ||
    p.operatorEnds base n after

/-- How many nodes, of those behind the anchor, still belong to the script of a base. Scripts of the
script take one of the levels left. -/
def scriptLength (p : Page κ) (levels : Nat) (base anchor : Node κ) (behind : List (Node κ)) :
    Except LimitPassed Nat :=
  match levels, behind with
  | 0, _ => .error p.tooDeep
  | _ + 1, [] => .ok 0
  | inner + 1, n :: rest =>
    if p.scriptEndsBefore base anchor n rest.head? then .ok 0
    else if p.isExponent anchor n then do
      let nested ← scriptLength p inner anchor n rest
      let more ← scriptLength p (inner + 1) base anchor (rest.drop nested)
      return 1 + nested + more
    else do
      return 1 + (← scriptLength p (inner + 1) base n rest)
termination_by behind.length

/-- A script takes no more nodes than there are. -/
theorem scriptLength_le {p : Page κ} {levels : Nat} {base anchor : Node κ}
    {behind : List (Node κ)} {n : Nat}
    (h : p.scriptLength levels base anchor behind = .ok n) : n ≤ behind.length := by
  fun_induction scriptLength p levels base anchor behind generalizing n with
  | case1 => cases h
  | case2 => cases h; exact Nat.le_refl _
  | case3 => cases h; exact Nat.zero_le _
  | case4 base anchor inner m rest _ _ ihNested ihMore =>
    obtain ⟨nested, hNested, h⟩ := exists_of_bind_eq_ok h
    obtain ⟨more, hMore, h⟩ := exists_of_bind_eq_ok h
    cases h
    have := ihNested hNested
    have := ihMore nested hMore
    rw [List.length_drop] at this
    rw [List.length_cons]
    omega
  | case5 base anchor inner m rest _ _ ih =>
    obtain ⟨more, hMore, h⟩ := exists_of_bind_eq_ok h
    cases h
    have := ih hMore
    rw [List.length_cons]
    omega

end InkAlgebra.Page

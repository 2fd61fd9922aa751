import Mathlib
import InkAlgebra.Proofs.Expression.Adjacency
import InkAlgebra.Typeset

/-!
# Reading typeset formulas

How a formula in LaTeX is read, by the usual conventions and with no look at how it was rendered: a
run of digits is one number and a letter is an operand by itself; `\frac` and `^` take the next
character or the next group in braces; brackets group; what stands side by side, or with `\times` in
between, is multiplied; a product is formed before a sum, and before a sign in front of it; a `+` or
`-` is a sign where an operand is expected, and else a sum or a difference.

The reader goes through the formula once. A line is what has been read since the innermost opening:
the sum so far, the signs of the term, its factors, and the last factor, which can still be raised
or, if it is a number, go on. What is open around the line waits on a stack.

§1 is the reader. §2 says what becomes of a line when the rendering of a tree is read on it:
`Line.shown`, by recursion over the tree. It always becomes something, so that every rendering is
read; what it means is the subject of `Proofs.Typeset.Faithful`.
-/

namespace InkAlgebra

/-! ## §1  The reader -/

/-- A command of LaTeX, or any other character. -/
inductive Mark where
  | char (c : Char)
  | command (name : List Char)
deriving DecidableEq, Repr

/-- The marks of a text, behind the start of a command: its name is the run of ASCII letters behind
the backslash. -/
def marksFrom : Option (List Char) → List Char → List Mark
  | none, [] => []
  | some name, [] => [.command name]
  | none, '\\' :: rest => marksFrom (some []) rest
  | none, c :: rest => .char c :: marksFrom none rest
  | some name, '\\' :: rest => .command name :: marksFrom (some []) rest
  | some name, c :: rest =>
    if c.isAlpha then marksFrom (some (name ++ [c])) rest
    else .command name :: .char c :: marksFrom none rest

/-- The factor that is read last: there may be none yet, and it may still lack something. -/
inductive Last where
  | nothing
  | number (text : List Char)
  | whole (e : Expr)
  | raising (base : Expr)
  | fraction
  | denominator (numerator : Expr)
deriving DecidableEq, Repr

def Last.expr? : Last → Option Expr
  | number text => some (.number text)
  | whole e => some e
  | _ => none

/-- What has been read of a line: the sum before its last term, and of that term the signs, the
factors before the last one, and the last one. -/
structure Line where
  sum : Option (Expr × Operation) := none
  signs : List Sign := []
  factors : Option Expr := none
  last : Last := .nothing
deriving DecidableEq, Repr

def times (factors : Option Expr) (e : Expr) : Expr := factors.elim e (.binary .mul · e)

namespace Line

/-- The product of all factors that are complete. -/
def product (l : Line) : Option Expr :=
  match l.last.expr? with
  | some e => some (times l.factors e)
  | none => l.factors

/-- A term with its signs and the sum in front of it. A sign stands for the whole term. -/
def around (l : Line) (term : Expr) : Expr :=
  let signed := l.signs.foldr Expr.signed term
  l.sum.elim signed fun (before, o) => .binary o before signed

/-- The expression of a line that is complete. -/
def close (l : Line) : Option Expr := l.last.expr?.map fun e => l.around (times l.factors e)

/-- The next factor. -/
def put (l : Line) (last : Last) : Line := { l with factors := l.product, last }

/-- An operand is what a power or a fraction waits for, and else the next factor. -/
def give (l : Line) (e : Expr) : Line :=
  match l.last with
  | .raising base => { l with last := .whole (.binary .pow base e) }
  | .fraction => { l with last := .denominator e }
  | .denominator numerator => { l with last := .whole (.binary .div numerator e) }
  | _ => l.put (.whole e)

/-- A digit or a point goes on with a number, or it is an operand by itself where one character is
taken, or it starts a number. -/
def digit (l : Line) (c : Char) : Line :=
  match l.last with
  | .number text => { l with last := .number (text ++ [c]) }
  | .nothing | .whole _ => l.put (.number [c])
  | _ => l.give (.number [c])

/-- A `+` or `-`: a sign where a factor is expected, and else an operation on the line so far. -/
def operator (l : Line) (s : Sign) (o : Operation) : Option Line :=
  match l.last with
  | .nothing => some { l with signs := l.signs ++ [s] }
  | _ => l.close.map fun e => { sum := some (e, o) }

/-- A character that is no bracket. -/
def character (l : Line) (c : Char) : Option Line :=
  if isLetter c then some (l.give (.letter c))
  else if isNumeric c then some (l.digit c)
  else match c with
    | '+' => l.operator .plus .add
    | '-' => l.operator .minus .sub
    | '^' => l.last.expr?.map fun base => { l with last := .raising base }
    | _ => none

/-- A command: the sizes of brackets mean nothing. -/
def command (l : Line) (name : List Char) : Option Line :=
  if name = "left".toList || name = "right".toList then some l
  else if name = "times".toList then l.last.expr?.map fun _ => l.put .nothing
  else if name = "frac".toList then
    match l.last with
    | .nothing | .number _ | .whole _ => some (l.put .fraction)
    | _ => none
  else none

end Line

/-- What is being read: the innermost line, and the lines around it with the brackets that opened
them, the innermost first. -/
structure Reading where
  outer : List (Char × Line) := []
  line : Line := {}
deriving DecidableEq, Repr

namespace Reading

/-- A bracket closes the innermost line, which becomes an operand of the line around it. -/
def closing (r : Reading) (c : Char) : Option Reading :=
  match r.outer with
  | (opened, below) :: outer =>
    if opened = openingOf c then r.line.close.map fun e => { outer, line := below.give e } else none
  | [] => none

def step (r : Reading) : Mark → Option Reading
  | .command name => (r.line.command name).map fun line => { r with line }
  | .char c =>
    if isOpeningChar c then some { outer := (c, r.line) :: r.outer }
    else if isClosingChar c then r.closing c
    else (r.line.character c).map fun line => { r with line }

end Reading

/-- Reads a text behind what has been read. -/
def readOn (outer : List (Char × Line)) (l : Line) (text : List Char) : Option Reading :=
  (marksFrom none text).foldlM Reading.step ⟨outer, l⟩

/-- The expression that a formula in LaTeX shows. -/
def readFormula (text : List Char) : Option Expr := do
  let r ← readOn [] {} text
  if r.outer.isEmpty then r.line.close else none

example : readFormula "-\\frac{x}{23}y^{2}\\times1.5-\\left(-x\\right)".toList =
    some (.binary .sub
      (.signed .minus (.binary .mul (.binary .mul (.binary .div (.letter 'x') (.number "23".toList))
        (.binary .pow (.letter 'y') (.number "2".toList))) (.number "1.5".toList)))
      (.signed .minus (.letter 'x'))) := by
  decide +kernel

/-! ## §2  Lines behind a rendering -/

/-- The formula of a tree. -/
def Expr.formula : Expr → Formula
  | number text => .atom text
  | letter c => .atom [c]
  | signed .plus a => a.formula
  | signed .minus a => .neg a.formula
  | binary o a b => .binary o.op a.formula b.formula

/-- Whether the operands of a tree can stand in a text. -/
def Expr.Spelled : Expr → Prop
  | number text => text ≠ [] ∧ ∀ c ∈ text, isNumeric c = true
  | letter c => isLetter c = true
  | signed _ a => a.Spelled
  | binary _ a b => a.Spelled ∧ b.Spelled

namespace Line

/-- A line behind the group that another line has become. -/
def group (l inner : Line) : Line := inner.close.elim l l.give

/-- A line behind a part that is read in brackets or as it is. -/
def embed (wrap : Bool) (read : Line → Line) (l : Line) : Line :=
  if wrap then l.group (read {}) else read l

/-- A line behind a `+` or `-`. -/
def behind (l : Line) (s : Sign) (o : Operation) : Line := (l.operator s o).getD l

/-- A line behind a `^`. -/
def raised (l : Line) : Line := l.last.expr?.elim l fun base => { l with last := .raising base }

/-- The line that a line becomes when the rendering of a tree is read on it. -/
def shown : Expr → Line → Line
  | .number text, l => l.put (.number text)
  | .letter c, l => l.put (.whole (.letter c))
  | .signed .plus a, l => shown a l
  | .signed .minus a, l =>
    (l.behind .minus .sub).embed (a.formula.isSum || a.formula.isNeg) (shown a)
  | .binary .add a b, l => ((shown a l).behind .plus .add).embed b.formula.isNeg (shown b)
  | .binary .sub a b, l =>
    ((shown a l).behind .minus .sub).embed (b.formula.isSum || b.formula.isNeg) (shown b)
  | .binary .mul a b, l =>
    let wrap := b.formula.isSum || b.formula.isNeg
    let left := l.embed a.formula.isSum (shown a)
    let left :=
      if Formula.needsTimes (Formula.bracketedIf wrap b.formula.render) then left.put .nothing
      else left
    left.embed wrap (shown b)
  | .binary .div a b, l => ((l.put .fraction).group (shown a {})).group (shown b {})
  | .binary .pow a b, l => (l.embed (!a.formula.isAtom) (shown a)).raised.group (shown b {})

/-- Whether a line ends with a complete factor. -/
def Ended (l : Line) : Prop := ∃ e, l.last.expr? = some e

/-- Whether a line can go on with a factor of any kind. -/
def Ready (l : Line) : Prop := l.last = .nothing ∨ l.Ended

theorem Ended.ready {l : Line} (h : l.Ended) : l.Ready := .inr h

theorem ready_empty : Ready {} := .inl rfl

theorem give_eq_put {l : Line} (h : l.Ready) (e : Expr) : l.give e = l.put (.whole e) := by
  unfold give
  rcases h with h | ⟨x, h⟩
  · rw [h]
  · cases hlast : l.last <;> simp_all [Last.expr?]

theorem Ended.exists_close {l : Line} (h : l.Ended) : ∃ e, l.close = some e := by
  obtain ⟨x, hx⟩ := h
  exact ⟨_, by rw [close, hx]; rfl⟩

/-- Behind a complete factor a `+` or `-` is an operation. -/
theorem behind_eq_of_close {l : Line} (h : l.Ended) {e : Expr} (he : l.close = some e) (s : Sign)
    (o : Operation) :
    l.behind s o = { sum := some (e, o) } := by
  obtain ⟨x, hx⟩ := h
  unfold behind operator
  rw [he]
  cases hlast : l.last with
  | nothing =>
      rw [hlast] at hx
      cases hx
  | _ => rfl

/-- Where a factor is expected a `+` or `-` is a sign. -/
theorem behind_eq_of_nothing {l : Line} (h : l.last = .nothing) (s : Sign) (o : Operation) :
    l.behind s o = { l with signs := l.signs ++ [s] } := by
  unfold behind operator
  rw [h]
  rfl

theorem last_behind {l : Line} (h : l.Ready) (s : Sign) (o : Operation) :
    (l.behind s o).last = .nothing := by
  rcases h with h | h
  · rw [behind_eq_of_nothing h]
    exact h
  · obtain ⟨e, he⟩ := h.exists_close
    rw [behind_eq_of_close h he]

theorem Ended.group {l inner : Line} (hl : l.Ready) (h : inner.Ended) : (l.group inner).Ended := by
  obtain ⟨e, he⟩ := h.exists_close
  rw [Line.group, he, Option.elim_some, give_eq_put hl]
  exact ⟨e, rfl⟩

theorem Ended.embed {l : Line} {read : Line → Line} {wrap : Bool} (hl : l.Ready)
    (h : ∀ l, Ready l → (read l).Ended) : (l.embed wrap read).Ended := by
  unfold Line.embed
  split
  · exact Ended.group hl (h _ ready_empty)
  · exact h l hl

theorem group_eq_give {inner : Line} {e : Expr} (h : inner.close = some e) (l : Line) :
    l.group inner = l.give e := by
  rw [group, h, Option.elim_some]

theorem group_group_fraction {above below : Line} {num den : Expr} (hnum : above.close = some num)
    (hden : below.close = some den) (l : Line) :
    ((l.put .fraction).group above).group below = l.put (.whole (.binary .div num den)) := by
  rw [group_eq_give hnum, group_eq_give hden]
  rfl

theorem raised_group {inner : Line} {script base : Expr} (hscript : inner.close = some script)
    {l : Line} (hbase : l.last.expr? = some base) :
    l.raised.group inner = { l with last := .whole (.binary .pow base script) } := by
  rw [group_eq_give hscript, raised, hbase]
  rfl

/-- Every rendering ends with a complete factor. -/
theorem ended_shown (e : Expr) {l : Line} (h : l.Ready) : (shown e l).Ended := by
  induction e generalizing l with
  | number text => exact ⟨_, rfl⟩
  | letter c => exact ⟨_, rfl⟩
  | signed s a ih =>
      cases s with
      | plus => exact ih h
      | minus => exact Ended.embed (.inl (last_behind h ..)) fun _ => ih
  | binary o a b ihA ihB =>
      cases o with
      | add => exact Ended.embed (.inl (last_behind (ihA h).ready ..)) fun _ => ihB
      | sub => exact Ended.embed (.inl (last_behind (ihA h).ready ..)) fun _ => ihB
      | mul =>
          rw [shown]
          refine Ended.embed ?_ fun _ => ihB
          split
          · exact .inl rfl
          · exact (Ended.embed h fun _ => ihA).ready
      | div =>
          obtain ⟨num, hnum⟩ := (ihA ready_empty).exists_close
          obtain ⟨den, hden⟩ := (ihB ready_empty).exists_close
          rw [shown, group_group_fraction hnum hden]
          exact ⟨_, rfl⟩
      | pow =>
          obtain ⟨base, hbase⟩ : (l.embed (!a.formula.isAtom) (shown a)).Ended :=
            Ended.embed h fun _ => ihA
          obtain ⟨script, hscript⟩ := (ihB ready_empty).exists_close
          rw [shown, raised_group hscript hbase]
          exact ⟨_, rfl⟩

end Line

/-! ## §3  Reading -/

/-- Whether a line becomes another one when a text is read on it, whatever is around it and whatever
follows. -/
def ReadsAs (text : List Char) (l l' : Line) : Prop :=
  ∀ outer rest, readOn outer l (text ++ rest) = readOn outer l' rest

namespace ReadsAs

variable {l l' l'' : Line} {s t text : List Char} {c : Char}

theorem nil (l : Line) : ReadsAs [] l l := fun _ _ => rfl

theorem append (h : ReadsAs s l l') (h' : ReadsAs t l' l'') : ReadsAs (s ++ t) l l'' := by
  intro outer rest
  rw [List.append_assoc, h, h']

theorem cons (h : ReadsAs [c] l l') (h' : ReadsAs t l' l'') : ReadsAs (c :: t) l l'' := h.append h'

theorem character (hopening : isOpeningChar c = false) (hclosing : isClosingChar c = false)
    (hc : c ≠ '\\') (h : l.character c = some l') : ReadsAs [c] l l' := by
  intro outer rest
  have hmarks : marksFrom none (c :: rest) = .char c :: marksFrom none rest := by
    rw [marksFrom]
    exact hc
  have hstep : Reading.step ⟨outer, l⟩ (.char c) = some ⟨outer, l'⟩ := by
    simp [Reading.step, hopening, hclosing, h]
  show (marksFrom none (c :: rest)).foldlM Reading.step ⟨outer, l⟩ = _
  rw [hmarks, List.foldlM_cons, hstep]
  rfl

theorem letter (hc : isLetter c = true) (l : Line) : ReadsAs [c] l (l.give (.letter c)) := by
  obtain ⟨_, hopening, hclosing⟩ := classes_of_isLetter hc
  refine character hopening hclosing ?_ (if_pos hc)
  rintro rfl
  exact absurd hc (by decide)

theorem digit (hc : isNumeric c = true) (l : Line) : ReadsAs [c] l (l.digit c) := by
  obtain ⟨hletter, hopening, hclosing⟩ := classes_of_isNumeric hc
  refine character hopening hclosing ?_ ?_
  · rintro rfl
    exact absurd hc (by decide)
  · rw [Line.character.eq_def, hletter, hc]
    rfl

/-- A number goes on to its end. -/
theorem digits (h : ∀ c ∈ text, isNumeric c = true) {front : List Char}
    (hl : l.last = .number front) :
    ReadsAs text l { l with last := .number (front ++ text) } := by
  induction text generalizing l front with
  | nil =>
      rw [List.append_nil, ← hl]
      exact nil l
  | cons c more ih =>
      have hdigit : ReadsAs [c] l { l with last := .number (front ++ [c]) } := by
        have hread := digit (h c List.mem_cons_self) l
        rwa [Line.digit, hl] at hread
      have hmore : ReadsAs more { l with last := .number (front ++ [c]) }
          { l with last := .number (front ++ [c] ++ more) } :=
        ih (fun d hd => h d (List.mem_cons_of_mem c hd)) rfl
      rw [List.append_assoc] at hmore
      exact hdigit.cons hmore

theorem number (hne : text ≠ []) (h : ∀ c ∈ text, isNumeric c = true) (hl : l.last = .nothing) :
    ReadsAs text l (l.put (.number text)) := by
  obtain ⟨c, more, rfl⟩ := List.exists_cons_of_ne_nil hne
  have hdigit : ReadsAs [c] l (l.put (.number [c])) := by
    have hread := digit (h c List.mem_cons_self) l
    rwa [Line.digit, hl] at hread
  have hmore : ReadsAs more (l.put (.number [c])) (l.put (.number ([c] ++ more))) :=
    digits (fun d hd => h d (List.mem_cons_of_mem c hd)) rfl
  exact hdigit.cons hmore

theorem operator {s : Sign} {o : Operation}
    (hc : (c = '+' ∧ s = .plus ∧ o = .add) ∨ (c = '-' ∧ s = .minus ∧ o = .sub)) (hl : l.Ready) :
    ReadsAs [c] l (l.behind s o) := by
  have hsome : l.operator s o = some (l.behind s o) := by
    rcases hl with hl | hl
    · simp [Line.behind, Line.operator, hl]
    · obtain ⟨e, he⟩ := hl.exists_close
      obtain ⟨x, hx⟩ := hl
      cases hlast : l.last <;> simp_all [Line.behind, Line.operator, Last.expr?]
  rcases hc with ⟨rfl, rfl, rfl⟩ | ⟨rfl, rfl, rfl⟩
  · exact character (by decide) (by decide) (by decide) hsome
  · exact character (by decide) (by decide) (by decide) hsome

theorem caret (hl : l.Ended) : ReadsAs ['^'] l l.raised := by
  obtain ⟨base, hbase⟩ := hl
  refine character (by decide) (by decide) (by decide) ?_
  show l.last.expr?.map _ = _
  rw [Line.raised, hbase]
  rfl

theorem closing_eq_some {o c : Char} (hpair : o = openingOf c) {inner : Line} (hinner : inner.Ended)
    (outer : List (Char × Line)) (l : Line) :
    Reading.closing ⟨(o, l) :: outer, inner⟩ c = some ⟨outer, l.group inner⟩ := by
  obtain ⟨e, he⟩ := hinner.exists_close
  rw [Line.group_eq_give he]
  simp [Reading.closing, he, hpair]

/-- What stands in brackets is read as a line of its own. -/
theorem bracketed {inner : Line} (h : ReadsAs text {} inner) (hinner : inner.Ended) (l : Line) :
    ReadsAs (Formula.bracketed text) l (l.group inner) := by
  intro outer rest
  have hleft : ∀ more, marksFrom none ("\\left(".toList ++ more) =
      .command "left".toList :: .char '(' :: marksFrom none more := fun _ => rfl
  have hright : ∀ more, marksFrom none ("\\right)".toList ++ more) =
      .command "right".toList :: .char ')' :: marksFrom none more := fun _ => rfl
  calc readOn outer l (Formula.bracketed text ++ rest)
      = readOn (('(', l) :: outer) {} (text ++ ("\\right)".toList ++ rest)) := by
        unfold Formula.bracketed
        rw [List.append_assoc, List.append_assoc, readOn, hleft]
        rfl
    _ = readOn (('(', l) :: outer) inner ("\\right)".toList ++ rest) := h _ _
    _ = (Reading.closing ⟨('(', l) :: outer, inner⟩ ')').bind fun r =>
        readOn r.outer r.line rest := by
        rw [readOn, hright]
        rfl
    _ = readOn outer (l.group inner) rest := by
        rw [closing_eq_some (by decide : '(' = openingOf ')') hinner outer l, Option.bind_some]

theorem braced {inner : Line} (h : ReadsAs text {} inner) (hinner : inner.Ended) (l : Line) :
    ReadsAs (Formula.braced text) l (l.group inner) := by
  intro outer rest
  calc readOn outer l (Formula.braced text ++ rest)
      = readOn (('\x7b', l) :: outer) {} (text ++ ('\x7d' :: rest)) := by
        rw [Formula.braced, List.append_assoc]
        rfl
    _ = readOn (('\x7b', l) :: outer) inner ('\x7d' :: rest) := h _ _
    _ = (Reading.closing ⟨('\x7b', l) :: outer, inner⟩ '\x7d').bind fun r =>
      readOn r.outer r.line rest := rfl
    _ = readOn outer (l.group inner) rest := by
        rw [closing_eq_some (by decide : '\x7b' = openingOf '\x7d') hinner outer l,
          Option.bind_some]

theorem fraction (hl : l.Ready) (h : ReadsAs ('\x7b' :: text) (l.put .fraction) l') :
    ReadsAs ("\\frac".toList ++ '\x7b' :: text) l l' := by
  intro outer rest
  have hcommand : l.command "frac".toList = some (l.put .fraction) := by
    rcases hl with hl | ⟨x, hx⟩
    · simp [Line.command, hl]
    · cases hlast : l.last <;> simp_all [Line.command, Last.expr?]
  have hstep : Reading.step ⟨outer, l⟩ (.command "frac".toList) =
      some ⟨outer, l.put .fraction⟩ := by
    rw [Reading.step, hcommand]
    rfl
  show (Mark.command "frac".toList :: marksFrom none ('\x7b' :: text ++ rest)).foldlM
      Reading.step _ = _
  rw [List.foldlM_cons, hstep]
  exact h outer rest

theorem isAlpha_eq_false_of_isDigit {c : Char} (h : c.isDigit = true) : c.isAlpha = false := by
  obtain ⟨hlow, hhigh⟩ := isDigit_iff_toNat.1 h
  rw [← isLetter_of_ascii (by omega)]
  exact isLetter_eq_false_of_isDigit h

/-- The name of `\times` ends where the right factor starts. -/
theorem marksFrom_times {right : List Char} (h : Formula.needsTimes right = true)
    (rest : List Char) :
    marksFrom none ("\\times".toList ++ right ++ rest) =
      .command "times".toList :: marksFrom none (right ++ rest) := by
  cases right with
  | nil => exact absurd h (by decide)
  | cons c more =>
      have hname : ∀ text, marksFrom none ("\\times".toList ++ text) =
          marksFrom (some "times".toList) text :=
        fun _ => rfl
      rw [List.append_assoc, hname]
      by_cases hc : c = '\\'
      · subst hc
        rfl
      · have halpha : c.isAlpha = false := by
          have hstart : (c.isDigit = true ∨ c = '.') ∨ '\\' = c ∧
              ['f', 'r', 'a', 'c'] <+: more := by
            simpa [Formula.needsTimes] using h
          rcases hstart with (hdigit | rfl) | ⟨hcommand, _⟩
          · exact isAlpha_eq_false_of_isDigit hdigit
          · rfl
          · exact absurd hcommand.symm hc
        simp [marksFrom, halpha]

theorem product {right : List Char} (hright : Formula.needsTimes right = true) (hl : l.Ended)
    (h : ReadsAs right (l.put .nothing) l') : ReadsAs ("\\times".toList ++ right) l l' := by
  intro outer rest
  have hstep : Reading.step ⟨outer, l⟩ (.command "times".toList) =
      some ⟨outer, l.put .nothing⟩ := by
    obtain ⟨x, hx⟩ := hl
    simp [Reading.step, Line.command, hx]
  rw [readOn, marksFrom_times hright, List.foldlM_cons, hstep]
  exact h outer rest

/-- What is read as it is can be read in brackets. -/
theorem embed {e : Expr} {wrap : Bool} (hl : l.Ready)
    (htimes : l.last = .nothing ∨ Formula.needsTimes (Formula.bracketedIf wrap text) = false)
    (h : ∀ {l : Line}, l.Ready → l.last = .nothing ∨ Formula.needsTimes text = false →
      ReadsAs text l (l.shown e)) :
    ReadsAs (Formula.bracketedIf wrap text) l (l.embed wrap (Line.shown e)) := by
  cases wrap with
  | false => exact h hl htimes
  | true => exact bracketed (h Line.ready_empty (.inl rfl)) (Line.ended_shown e Line.ready_empty) l

/-- A right factor is read behind `\times` or right behind the left factor. -/
theorem factor {e : Expr} {wrap : Bool} (hl : l.Ended)
    (h : ∀ {l : Line}, l.Ready → l.last = .nothing ∨ Formula.needsTimes text = false →
      ReadsAs text l (l.shown e)) :
    ReadsAs
      ((if Formula.needsTimes (Formula.bracketedIf wrap text) then "\\times".toList else []) ++
        Formula.bracketedIf wrap text) l
      ((if Formula.needsTimes (Formula.bracketedIf wrap text) then l.put .nothing else l).embed wrap
        (Line.shown e)) := by
  have hnothing : (l.put .nothing).last = .nothing := rfl
  cases htimes : Formula.needsTimes (Formula.bracketedIf wrap text) with
  | true => exact product htimes hl (embed (.inl hnothing) (.inl hnothing) h)
  | false => exact embed hl.ready (.inr htimes) h

end ReadsAs

/-- A text that runs into nothing starts with a part that does not. -/
theorem needsTimes_append {text : List Char} (hne : text ≠ []) (more : List Char)
    (h : Formula.needsTimes (text ++ more) = false) : Formula.needsTimes text = false := by
  obtain ⟨c, cs, rfl⟩ := List.exists_cons_of_ne_nil hne
  obtain ⟨hhead, hfrac⟩ := Bool.or_eq_false_iff.1 h
  refine Bool.or_eq_false_iff.2 ⟨hhead, ?_⟩
  cases hprefix : "\\frac".toList.isPrefixOf (c :: cs) with
  | false => rfl
  | true =>
      have hlong : "\\frac".toList <+: c :: cs ++ more :=
        (List.isPrefixOf_iff_prefix.1 hprefix).trans (List.prefix_append _ _)
      rw [List.isPrefixOf_iff_prefix.2 hlong] at hfrac
      cases hfrac

theorem bracketedIf_ne_nil {text : List Char} (h : text ≠ []) (wrap : Bool) :
    Formula.bracketedIf wrap text ≠ [] := by
  cases wrap with
  | false => exact h
  | true => exact List.cons_ne_nil _ _

theorem render_ne_nil {e : Expr} (h : e.Spelled) : e.formula.render ≠ [] := by
  induction e with
  | number text => exact h.1
  | letter c => exact List.cons_ne_nil c []
  | signed s a ih =>
      cases s with
      | plus => exact ih h
      | minus => exact List.cons_ne_nil _ _
  | binary o a b ihA ihB =>
      cases o with
      | add | sub | pow => exact List.append_ne_nil_of_right_ne_nil _ (List.cons_ne_nil _ _)
      | mul => exact List.append_ne_nil_of_right_ne_nil _ (bracketedIf_ne_nil (ihB h.2) _)
      | div => exact List.cons_ne_nil _ _

/-- A rendering of one character is an operand. -/
theorem shown_of_length_le_one {e : Expr} (h : e.Spelled) (hlength : e.formula.render.length ≤ 1) :
    ∃ c, e.formula.render = [c] ∧
      (isLetter c = true ∧ (Line.shown e {}).close = some (.letter c) ∨
        isNumeric c = true ∧ (Line.shown e {}).close = some (.number [c])) := by
  induction e with
  | number text =>
      obtain ⟨c, more, rfl⟩ := List.exists_cons_of_ne_nil h.1
      obtain rfl : more = [] :=
        List.length_eq_zero_iff.1 (Nat.le_zero.1 (Nat.le_of_succ_le_succ hlength))
      exact ⟨c, rfl, .inr ⟨h.2 c List.mem_cons_self, rfl⟩⟩
  | letter c => exact ⟨c, rfl, .inl ⟨h, rfl⟩⟩
  | signed s a ih =>
      cases s with
      | plus => exact ih h hlength
      | minus =>
          have ha : a.Spelled := h
          have hpos := List.length_pos_iff.2 (bracketedIf_ne_nil (render_ne_nil ha)
            (a.formula.isSum || a.formula.isNeg))
          simp only [Expr.formula, Formula.render, List.length_cons] at hlength
          omega
  | binary o a b ihA ihB =>
      -- an operation puts at least two characters side by side
      have hleft : ∀ wrap, 0 < (Formula.bracketedIf wrap a.formula.render).length :=
        fun wrap => List.length_pos_iff.2 (bracketedIf_ne_nil (render_ne_nil h.1) wrap)
      have hright : ∀ wrap, 0 < (Formula.bracketedIf wrap b.formula.render).length :=
        fun wrap => List.length_pos_iff.2 (bracketedIf_ne_nil (render_ne_nil h.2) wrap)
      cases o with
      | add | sub =>
          have := hleft false
          simp only [Expr.formula, Operation.op, Formula.render, Formula.bracketedIf,
            List.length_append, List.length_cons, Bool.false_eq_true, if_false] at hlength this
          omega
      | mul =>
          have := hleft a.formula.isSum
          have := hright (b.formula.isSum || b.formula.isNeg)
          simp only [Expr.formula, Operation.op, Formula.render, List.length_append] at hlength
          omega
      | div =>
          simp only [Expr.formula, Operation.op, Formula.render, List.length_append] at hlength
          have : "\\frac".toList.length = 5 := rfl
          omega
      | pow =>
          have := hleft (!a.formula.isAtom)
          have hscript := List.length_pos_iff.2 (render_ne_nil h.2)
          simp only [Expr.formula, Operation.op, Formula.render, List.length_append,
            List.length_cons] at hlength
          omega

/-- A script of one character stands without braces. -/
theorem ReadsAs.script {e : Expr} (h : e.Spelled) (hlength : e.formula.render.length ≤ 1) {l : Line}
    (hl : l.Ended) : ReadsAs e.formula.render l.raised (l.raised.group (Line.shown e {})) := by
  obtain ⟨base, hbase⟩ := hl
  obtain ⟨c, hrender, ⟨hc, hclose⟩ | ⟨hc, hclose⟩⟩ := shown_of_length_le_one h hlength
  · rw [hrender, Line.group_eq_give hclose]
    exact ReadsAs.letter hc _
  · have hdigit : l.raised.digit c = l.raised.give (.number [c]) := by
      rw [Line.raised, hbase]
      rfl
    rw [hrender, Line.group_eq_give hclose, ← hdigit]
    exact ReadsAs.digit hc _

/-- **Every rendering is read.** On a line that can go on, and where it runs into nothing, the
rendering of a tree is read as `Line.shown` says. -/
theorem readsAs_shown {e : Expr} (hspelled : e.Spelled) {l : Line} (hl : l.Ready)
    (htimes : l.last = .nothing ∨ Formula.needsTimes e.formula.render = false) :
    ReadsAs e.formula.render l (l.shown e) := by
  induction e generalizing l with
  | number text =>
      obtain ⟨hne, hnumeric⟩ := hspelled
      have hlast : l.last = .nothing := by
        refine htimes.resolve_right fun htimes => ?_
        obtain ⟨c, more, rfl⟩ := List.exists_cons_of_ne_nil hne
        have hc : isNumeric c = false := (Bool.or_eq_false_iff.1 htimes).1
        rw [hnumeric c List.mem_cons_self] at hc
        cases hc
      exact ReadsAs.number hne hnumeric hlast
  | letter c =>
      have hread := ReadsAs.letter hspelled l
      rwa [Line.give_eq_put hl] at hread
  | signed s a ih =>
      cases s with
      | plus => exact ih hspelled hl htimes
      | minus =>
          have hlast : (l.behind .minus .sub).last = .nothing := Line.last_behind hl ..
          exact (ReadsAs.operator (.inr ⟨rfl, rfl, rfl⟩) hl).cons
            (ReadsAs.embed (.inl hlast) (.inl hlast) (ih hspelled))
  | binary o a b ihA ihB =>
      obtain ⟨hspelledA, hspelledB⟩ := hspelled
      have hA : (l.shown a).Ended := Line.ended_shown a hl
      cases o with
      | add =>
          have hlast : ((l.shown a).behind .plus .add).last = .nothing :=
            Line.last_behind hA.ready ..
          refine (ihA hspelledA hl (htimes.imp_right ?_)).append ?_
          · exact needsTimes_append (render_ne_nil hspelledA) _
          · exact (ReadsAs.operator (.inl ⟨rfl, rfl, rfl⟩) hA.ready).cons
              (ReadsAs.embed (.inl hlast) (.inl hlast) (ihB hspelledB))
      | sub =>
          have hlast : ((l.shown a).behind .minus .sub).last = .nothing :=
            Line.last_behind hA.ready ..
          refine (ihA hspelledA hl (htimes.imp_right ?_)).append ?_
          · exact needsTimes_append (render_ne_nil hspelledA) _
          · exact (ReadsAs.operator (.inr ⟨rfl, rfl, rfl⟩) hA.ready).cons
              (ReadsAs.embed (.inl hlast) (.inl hlast) (ihB hspelledB))
      | mul =>
          have hleft : (l.embed a.formula.isSum (Line.shown a)).Ended :=
            Line.Ended.embed hl fun _ => Line.ended_shown a
          have hrender : (Expr.binary .mul a b).formula.render =
              Formula.bracketedIf a.formula.isSum a.formula.render ++ _ := List.append_assoc ..
          rw [hrender] at htimes ⊢
          refine (ReadsAs.embed hl (htimes.imp_right ?_) (ihA hspelledA)).append ?_
          · exact needsTimes_append (bracketedIf_ne_nil (render_ne_nil hspelledA) _) _
          · exact ReadsAs.factor hleft (ihB hspelledB)
      | div =>
          have hnum := ReadsAs.braced (ihA hspelledA Line.ready_empty (.inl rfl))
            (Line.ended_shown a Line.ready_empty) (l.put .fraction)
          have hden := ReadsAs.braced (ihB hspelledB Line.ready_empty (.inl rfl))
            (Line.ended_shown b Line.ready_empty) ((l.put .fraction).group (Line.shown a {}))
          exact ReadsAs.fraction hl (hnum.append hden)
      | pow =>
          have hbase : (l.embed (!a.formula.isAtom) (Line.shown a)).Ended :=
            Line.Ended.embed hl fun _ => Line.ended_shown a
          refine (ReadsAs.embed hl (htimes.imp_right ?_) (ihA hspelledA)).append
            ((ReadsAs.caret hbase).cons ?_)
          · exact needsTimes_append (bracketedIf_ne_nil (render_ne_nil hspelledA) _) _
          split
          · exact ReadsAs.braced (ihB hspelledB Line.ready_empty (.inl rfl))
              (Line.ended_shown b Line.ready_empty) _
          · rename_i hlength
            exact ReadsAs.script hspelledB (by omega) hbase

theorem readFormula_render {e : Expr} (h : e.Spelled) :
    readFormula e.formula.render = (Line.shown e {}).close := by
  have hread : readOn [] {} (e.formula.render ++ []) = readOn [] (Line.shown e {}) [] :=
    readsAs_shown h Line.ready_empty (.inl rfl) [] []
  rw [List.append_nil] at hread
  rw [readFormula, hread]
  rfl

end InkAlgebra

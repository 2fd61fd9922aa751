import Mathlib
import InkAlgebra.Expression.Postfix
import InkAlgebra.Proofs.Expression.Postorder

/-!
# Parsing by precedence

A text that writes a tree is split into the very tokens it was derived from, and the row of tokens
goes into the postorder of the tree.

The splitting is one induction on the derivation: behind an operand comes no numeric character and
no sign, behind an operator or an opening bracket comes an operand. The stack is the second one.
Reading a phrase on top of a stack leaves some operators of the phrase waiting above it, and these
are what the postorder still lacks at its end. What an operator of the phrase lets go of is decided
by two facts only: how weakly the operators of a phrase may bind (`Phrase.floor`), and that nothing
below the phrase binds as tightly (`Phrase.FitsOn`).

§1 is the splitting, §2 the stack, §3 the two together.
-/

namespace InkAlgebra

/-! ## §1  Splitting -/

theorem isDigit_iff_toNat {c : Char} : c.isDigit = true ↔ 48 ≤ c.toNat ∧ c.toNat ≤ 57 := by
  simp only [Char.isDigit, Bool.and_eq_true, decide_eq_true_eq, ge_iff_le, UInt32.le_iff_toNat_le]
  rfl

theorem isLetter_eq_false_of_isDigit {c : Char} (h : c.isDigit = true) : isLetter c = false := by
  -- digits are ASCII, where the table of letters is not asked
  obtain ⟨hlow, hhigh⟩ := isDigit_iff_toNat.1 h
  rw [isLetter_of_ascii (by omega)]
  simp only [Char.isAlpha, Char.isUpper, Char.isLower, Bool.or_eq_false_iff, Bool.and_eq_false_iff,
    decide_eq_false_iff_not, ge_iff_le, UInt32.le_iff_toNat_le, Char.toNat_val]
  have hupper : ('A' : Char).toNat = 65 := rfl
  have hlower : ('a' : Char).toNat = 97 := rfl
  omega

theorem isNumeric_eq_false_of_isLetter {c : Char} (h : isLetter c = true) :
    isNumeric c = false := by
  unfold isNumeric
  by_cases hdot : c = '.'
  · subst hdot
    exact absurd h (by decide)
  · by_cases hd : c.isDigit = true
    · rw [isLetter_eq_false_of_isDigit hd] at h
      exact Bool.noConfusion h
    · simp [hdot, hd]

/-- Whether a text goes on with a numeric character. -/
def startsNumeric (text : List Char) : Bool := text.head?.any isNumeric

theorem tokenizeFrom_of_not_isNumeric {c : Char} (signExpected : Bool) (rest : List Char)
    (h : isNumeric c = false) :
    tokenizeFrom signExpected (c :: rest) =
      Token.ofChar signExpected c ::
        tokenizeFrom (Token.ofChar signExpected c).invitesSign rest := by
  simp [tokenizeFrom, h]

theorem ofChar_ne_number (signExpected : Bool) (c : Char) (text : List Char) :
    Token.ofChar signExpected c ≠ .number text := by
  unfold Token.ofChar
  split_ifs
  · exact Token.noConfusion
  · exact Token.noConfusion
  · exact Token.noConfusion
  all_goals
    cases Op.ofChar? c <;> exact Token.noConfusion

theorem consNumeric_of_ne_number {t : Token} (c : Char) (rest : List Token)
    (h : ∀ text, t ≠ .number text) :
    Token.consNumeric c (t :: rest) = .number [c] :: t :: rest := by
  cases t with
  | number text => exact absurd rfl (h text)
  | _ => rfl

theorem consNumeric_tokenizeFrom {rest : List Char} (c : Char) (h : startsNumeric rest = false) :
    Token.consNumeric c (tokenizeFrom false rest) = .number [c] :: tokenizeFrom false rest := by
  cases rest with
  | nil => rfl
  | cons d rest =>
      have hd : isNumeric d = false := by simpa [startsNumeric] using h
      rw [tokenizeFrom_of_not_isNumeric false rest hd]
      exact consNumeric_of_ne_number c _ (ofChar_ne_number false d)

theorem tokenizeFrom_number {text : List Char} (rest : List Char) (signExpected : Bool)
    (hne : text ≠ []) (hnum : ∀ c ∈ text, isNumeric c = true) (hrest : startsNumeric rest = false) :
    tokenizeFrom signExpected (text ++ rest) = .number text :: tokenizeFrom false rest := by
  induction text generalizing signExpected with
  | nil => exact absurd rfl hne
  | cons c cs ih =>
      have hc : isNumeric c = true := hnum c List.mem_cons_self
      rw [List.cons_append, tokenizeFrom, if_pos hc]
      by_cases hcs : cs = []
      · subst hcs
        exact consNumeric_tokenizeFrom c hrest
      · rw [ih false hcs fun d hd => hnum d (List.mem_cons_of_mem c hd)]
        rfl

theorem ofChar_of_isLetter {c : Char} (signExpected : Bool) (h : isLetter c = true) :
    Token.ofChar signExpected c = .letter c := by
  unfold Token.ofChar
  simp only [Bool.or_eq_true, decide_eq_true_eq]
  split_ifs with hopen hclose
  · rcases hopen with (rfl | rfl) | rfl <;> exact absurd h (by decide)
  · rcases hclose with (rfl | rfl) | rfl <;> exact absurd h (by decide)
  · rfl

theorem tokenizeFrom_letter {c : Char} (rest : List Char) (signExpected : Bool)
    (h : isLetter c = true) :
    tokenizeFrom signExpected (c :: rest) = .letter c :: tokenizeFrom false rest := by
  rw [tokenizeFrom_of_not_isNumeric _ rest (isNumeric_eq_false_of_isLetter h),
    ofChar_of_isLetter signExpected h]
  rfl

/-- Behind an operand an operation is read as one, and an operand is expected behind it. -/
theorem tokenizeFrom_operation (o : Operation) (rest : List Char) :
    tokenizeFrom false ((Token.op o.op).source ++ rest) = .op o.op :: tokenizeFrom true rest := by
  cases o <;> rfl

/-- Where an operand is expected a sign is read as one, and an operand is still expected. -/
theorem tokenizeFrom_sign (s : Sign) (rest : List Char) :
    tokenizeFrom true ((Token.op s.op).source ++ rest) = .op s.op :: tokenizeFrom true rest := by
  cases s <;> rfl

theorem tokenizeFrom_opening {o c : Char} (rest : List Char) (h : (o, c) ∈ bracketPairs) :
    tokenizeFrom true (o :: rest) = .opening o :: tokenizeFrom true rest := by
  rcases mem_bracketPairs.1 h with ⟨rfl, rfl⟩ | ⟨rfl, rfl⟩ | ⟨rfl, rfl⟩ <;> rfl

theorem tokenizeFrom_closing {o c : Char} (rest : List Char) (h : (o, c) ∈ bracketPairs) :
    tokenizeFrom false (c :: rest) = .closing c :: tokenizeFrom false rest := by
  rcases mem_bracketPairs.1 h with ⟨rfl, rfl⟩ | ⟨rfl, rfl⟩ | ⟨rfl, rfl⟩ <;> rfl

theorem startsNumeric_operation (o : Operation) (rest : List Char) :
    startsNumeric ((Token.op o.op).source ++ rest) = false := by
  cases o <;> rfl

theorem startsNumeric_closing {o c : Char} (rest : List Char) (h : (o, c) ∈ bracketPairs) :
    startsNumeric (c :: rest) = false := by
  rcases mem_bracketPairs.1 h with ⟨rfl, rfl⟩ | ⟨rfl, rfl⟩ | ⟨rfl, rfl⟩ <;> rfl

/-- **Splitting undoes writing.** Where an operand is expected, the text of a derived row is split
into that row; what follows is split as what follows an operand. -/
theorem tokenizeFrom_of_derives {p : Phrase} {row : List Token} {e : Expr} (h : Derives p row e) :
    ∀ rest, startsNumeric rest = false →
      tokenizeFrom true (row.flatMap Token.source ++ rest) = row ++ tokenizeFrom false rest := by
  -- every part of a row is followed by an operator, a bracket or `rest`, none of them numeric
  induction h with
  | ofTerm _ ih => exact ih
  | ofUnary _ ih => exact ih
  | ofPower _ ih => exact ih
  | ofAtom _ ih => exact ih
  | sum _ _ _ ihLeft ihRight | product _ _ _ ihLeft ihRight | power _ _ ihLeft ihRight =>
      intro rest hrest
      rw [List.flatMap_append, List.flatMap_cons, List.append_assoc, List.append_assoc,
        ihLeft _ (startsNumeric_operation ..), tokenizeFrom_operation, ihRight rest hrest,
        List.append_assoc, List.cons_append]
  | sign s _ ih =>
      intro rest hrest
      rw [List.flatMap_cons, List.append_assoc, tokenizeFrom_sign, ih rest hrest, List.cons_append]
  | number hne hnum =>
      intro rest hrest
      simpa [Token.source, Token.name] using tokenizeFrom_number rest true hne hnum hrest
  | letter hc =>
      intro rest _
      simpa [Token.source, Token.name] using tokenizeFrom_letter rest true hc
  | @bracket row e o c hpair _ ih =>
      intro rest _
      have hsource : (Token.opening o :: row ++ [Token.closing c]).flatMap Token.source ++ rest =
          o :: (row.flatMap Token.source ++ c :: rest) := by
        simp [Token.source, Token.name]
      rw [hsource, tokenizeFrom_opening _ hpair, ih _ (startsNumeric_closing rest hpair),
        tokenizeFrom_closing rest hpair]
      simp

theorem tokenize_of_derives {p : Phrase} {row : List Token} {e : Expr} (h : Derives p row e) :
    tokenize (row.flatMap Token.source) = row := by
  have := tokenizeFrom_of_derives h [] rfl
  simpa [tokenize, tokenizeFrom] using this

/-! ## §2  The stack -/

theorem precedence_le_three (o : Op) : o.precedence ≤ 3 := by
  cases o <;> decide

/-- The least precedence of an operator that stands in a phrase outside its brackets. -/
def Phrase.floor : Phrase → Nat
  | expr => 0
  | term => 2
  | unary | power => 3
  | atom => 4

/-- Whether a phrase can be read on a stack without letting go of what is there: the operator on top
binds more weakly than those of the phrase, or those group to the right and let go of nothing. -/
def Phrase.FitsOn (p : Phrase) (stack : List Pending) : Prop :=
  ∀ o below, stack = .op o :: below → o.precedence < p.floor ∨ 3 ≤ p.floor

theorem Phrase.fitsOn_of_three_le {p : Phrase} (h : 3 ≤ p.floor) (stack : List Pending) :
    p.FitsOn stack :=
  fun _ _ _ => .inr h

theorem Phrase.fitsOn_bracket (p : Phrase) (c : Char) (stack : List Pending) :
    p.FitsOn (.bracket c :: stack) := by
  intro o below h
  cases h

namespace Pending

theorem release_append {next : Op} {waiting : List Op} {stack : List Pending}
    (hwaiting : ∀ o ∈ waiting, yieldsTo o next = true)
    (hstack : ∀ o below, stack = .op o :: below → yieldsTo o next = false) :
    release next (waiting.map Pending.op ++ stack) = (waiting.map Token.op, stack) := by
  induction waiting with
  | nil =>
      match stack, hstack with
      | [], _ => rfl
      | .bracket c :: below, _ => rfl
      | .op o :: below, h => simp [release, h o below rfl]
  | cons o waiting ih =>
      have ho : yieldsTo o next = true := hwaiting o List.mem_cons_self
      have hrest := ih fun w hw => hwaiting w (List.mem_cons_of_mem o hw)
      simp [release, ho, hrest]

theorem close?_append (c : Char) (waiting : List Op) (stack : List Pending) :
    close? c (waiting.map Pending.op ++ .bracket (openingOf c) :: stack) =
      some (waiting.map Token.op, stack) := by
  induction waiting with
  | nil => simp [close?]
  | cons o waiting ih => simp [close?, ih]

theorem finish_map_op (waiting : List Op) :
    finish (waiting.map Pending.op) = .ok (waiting.map Token.op) := by
  induction waiting with
  | nil => rfl
  | cons o waiting ih =>
      simp only [List.map_cons, finish, ih]
      rfl

end Pending

theorem map_append_map_append (front back : List Token) (x : Except SyntaxError (List Token)) :
    (x.map (back ++ ·)).map (front ++ ·) = x.map ((front ++ back) ++ ·) := by
  cases x with
  | error e => rfl
  | ok out => simp [Except.map]

/-- What reading a row does to the stack if the row is a phrase with a given tree: some of the
tree's postorder goes out, and the rest of it waits above the stack. -/
def Reads (p : Phrase) (row : List Token) (e : Expr) : Prop :=
  ∀ stack rest, p.FitsOn stack → ∃ (out : List Token) (waiting : List Op),
    out ++ waiting.map Token.op = e.postorder ∧
    (∀ o ∈ waiting, p.floor ≤ o.precedence) ∧
    toPostfixFrom stack (row ++ rest) =
      (toPostfixFrom (waiting.map Pending.op ++ stack) rest).map (out ++ ·)

namespace Reads

theorem weaken {p q : Phrase} {row : List Token} {e : Expr} (h : Reads p row e)
    (hfloor : q.floor ≤ p.floor) (hfits : ∀ stack, q.FitsOn stack → p.FitsOn stack) :
    Reads q row e := by
  intro stack rest hstack
  obtain ⟨out, waiting, hout, hwaiting, hrun⟩ := h stack rest (hfits stack hstack)
  exact ⟨out, waiting, hout, fun o ho => Nat.le_trans hfloor (hwaiting o ho), hrun⟩

/-- An operand goes out at once, and nothing waits for it. -/
theorem operand {t : Token} {e : Expr} (hpost : e.postorder = [t])
    (hrun : ∀ stack rest, toPostfixFrom stack (t :: rest) =
      (toPostfixFrom stack rest).map (t :: ·)) :
    Reads .atom [t] e := by
  intro stack rest _
  exact ⟨[t], [], by simp [hpost], by simp, hrun stack rest⟩

/-- An operation lets go of the operators of its left side, and of nothing below them. -/
theorem binary {p q r : Phrase} {left right : List Token} {a b : Expr} {o : Operation}
    (hleft : Reads p left a) (hright : Reads q right b)
    (hyields : ∀ w : Op, p.floor ≤ w.precedence → Pending.yieldsTo w o.op = true)
    (hstays : ∀ stack, r.FitsOn stack → p.FitsOn stack ∧
      ∀ w below, stack = .op w :: below → Pending.yieldsTo w o.op = false)
    (hnext : o.op.precedence < q.floor ∨ 3 ≤ q.floor)
    (hfloor : r.floor ≤ o.op.precedence) (hfloor' : r.floor ≤ q.floor) :
    Reads r (left ++ .op o.op :: right) (.binary o a b) := by
  intro stack rest hstack
  obtain ⟨hp, hkeep⟩ := hstays stack hstack
  obtain ⟨outA, waitingA, hpostA, hfloorA, hrunA⟩ := hleft stack (.op o.op :: right ++ rest) hp
  have hq : q.FitsOn (.op o.op :: stack) := by
    intro w below hw
    cases hw
    exact hnext
  obtain ⟨outB, waitingB, hpostB, hfloorB, hrunB⟩ := hright (.op o.op :: stack) rest hq
  have hrelease : Pending.release o.op (waitingA.map Pending.op ++ stack) =
      (waitingA.map Token.op, stack) :=
    Pending.release_append (fun w hw => hyields w (hfloorA w hw)) hkeep
  -- the left side is out by the time the operation is read, so only the right side still waits
  refine ⟨a.postorder ++ outB, waitingB ++ [o.op], ?_, ?_, ?_⟩
  · simp [Expr.postorder, ← hpostB]
  · intro w hw
    rcases List.mem_append.1 hw with hw | hw
    · exact Nat.le_trans hfloor' (hfloorB w hw)
    · rw [List.mem_singleton.1 hw]
      exact hfloor
  · calc toPostfixFrom stack (left ++ .op o.op :: right ++ rest)
        = (toPostfixFrom (waitingA.map Pending.op ++ stack)
            (.op o.op :: right ++ rest)).map (outA ++ ·) := by
          rw [List.append_assoc]
          exact hrunA
      _ = ((toPostfixFrom (.op o.op :: stack) (right ++ rest)).map
            (waitingA.map Token.op ++ ·)).map (outA ++ ·) := by
          simp only [List.cons_append, toPostfixFrom, hrelease]
      _ = (toPostfixFrom (.op o.op :: stack) (right ++ rest)).map (a.postorder ++ ·) := by
          rw [map_append_map_append, hpostA]
      _ = (toPostfixFrom ((waitingB ++ [o.op]).map Pending.op ++ stack) rest).map
            ((a.postorder ++ outB) ++ ·) := by
          rw [hrunB, map_append_map_append]
          simp

/-- A sign lets go of nothing. -/
theorem sign {row : List Token} {a : Expr} (h : Reads .unary row a) (s : Sign) :
    Reads .unary (.op s.op :: row) (.signed s a) := by
  intro stack rest _
  obtain ⟨out, waiting, hpost, hfloor, hrun⟩ :=
    h (.op s.op :: stack) rest (Phrase.fitsOn_of_three_le (by decide) _)
  have hkeep : ∀ w below, stack = .op w :: below → Pending.yieldsTo w s.op = false := by
    intro w below _
    cases s <;> cases w <;> rfl
  have hrelease : Pending.release s.op (([] : List Op).map Pending.op ++ stack) = ([], stack) :=
    Pending.release_append (by simp) hkeep
  refine ⟨out, waiting ++ [s.op], ?_, ?_, ?_⟩
  · simp [Expr.postorder, ← hpost]
  · intro w hw
    rcases List.mem_append.1 hw with hw | hw
    · exact hfloor w hw
    · rw [List.mem_singleton.1 hw]
      cases s <;> decide
  · rw [List.map_nil, List.nil_append] at hrelease
    simp only [List.cons_append, toPostfixFrom, hrelease]
    rw [hrun, map_append_map_append]
    simp

/-- A closing bracket lets go of everything up to its opening one, so that nothing of what is in
brackets is left waiting. -/
theorem bracket {row : List Token} {e : Expr} {o c : Char} (hpair : (o, c) ∈ bracketPairs)
    (h : Reads .expr row e) : Reads .atom (.opening o :: row ++ [.closing c]) e := by
  intro stack rest _
  have ho : o = openingOf c := by
    rcases mem_bracketPairs.1 hpair with ⟨rfl, rfl⟩ | ⟨rfl, rfl⟩ | ⟨rfl, rfl⟩ <;> rfl
  subst ho
  obtain ⟨out, waiting, hpost, _, hrun⟩ :=
    h (.bracket (openingOf c) :: stack) (.closing c :: rest) (Phrase.fitsOn_bracket _ _ _)
  refine ⟨e.postorder, [], by simp, by simp, ?_⟩
  calc toPostfixFrom stack (.opening (openingOf c) :: row ++ [.closing c] ++ rest)
      = toPostfixFrom (.bracket (openingOf c) :: stack) (row ++ .closing c :: rest) := by
        simp [toPostfixFrom]
    _ = ((toPostfixFrom stack rest).map (waiting.map Token.op ++ ·)).map (out ++ ·) := by
        rw [hrun]
        simp only [toPostfixFrom, Pending.close?_append]
    _ = (toPostfixFrom stack rest).map (e.postorder ++ ·) := by
        rw [map_append_map_append, hpost]

end Reads

/-- **Every derivation is read as its tree**, on any stack that the phrase fits on. -/
theorem reads_of_derives {p : Phrase} {row : List Token} {e : Expr} (h : Derives p row e) :
    Reads p row e := by
  induction h with
  | ofTerm _ ih =>
      refine ih.weaken (by decide) ?_
      intro stack h o below ho
      rcases h o below ho with h | h
      · exact absurd h (by simp [Phrase.floor])
      · exact absurd h (by decide)
  | ofUnary _ ih => exact ih.weaken (by decide) fun stack _ =>
      Phrase.fitsOn_of_three_le (by decide) _
  | ofPower _ ih => exact ih.weaken (by decide) fun stack _ =>
      Phrase.fitsOn_of_three_le (by decide) _
  | ofAtom _ ih => exact ih.weaken (by decide) fun stack _ =>
      Phrase.fitsOn_of_three_le (by decide) _
  | sum _ ho _ ihLeft ihRight =>
      refine ihLeft.binary ihRight ?_ ?_ ?_ ?_ (by decide)
      · rcases ho with rfl | rfl <;> intro w _ <;> cases w <;> rfl
      · intro stack hstack
        refine ⟨hstack, ?_⟩
        intro w below hw
        rcases hstack w below hw with h | h
        · exact absurd h (by simp [Phrase.floor])
        · exact absurd h (by decide)
      all_goals rcases ho with rfl | rfl <;> decide
  | product _ ho _ ihLeft ihRight =>
      refine ihLeft.binary ihRight ?_ ?_ ?_ ?_ (by decide)
      · rcases ho with rfl | rfl <;> intro w hw <;> revert hw <;> cases w <;> decide
      · intro stack hstack
        refine ⟨hstack, ?_⟩
        intro w below hw
        rcases hstack w below hw with h | h
        · rcases ho with rfl | rfl <;> revert h <;> cases w <;> decide
        · exact absurd h (by decide)
      all_goals rcases ho with rfl | rfl <;> decide
  | power _ _ ihLeft ihRight =>
      refine ihLeft.binary ihRight ?_ ?_ (by decide) (by decide) (by decide)
      · -- nothing of an atom is left waiting, as no operator binds that tightly
        intro w hw
        exact absurd (Nat.le_trans hw (precedence_le_three w)) (by decide)
      · intro stack _
        refine ⟨Phrase.fitsOn_of_three_le (by decide) _, ?_⟩
        intro w below _
        cases w <;> rfl
  | sign s _ ih => exact ih.sign s
  | number _ _ => exact Reads.operand rfl fun _ _ => by simp [toPostfixFrom]
  | letter _ => exact Reads.operand rfl fun _ _ => by simp [toPostfixFrom]
  | bracket hpair _ ih => exact Reads.bracket hpair ih

theorem toPostfix_of_derives {row : List Token} {e : Expr} (h : Derives .expr row e) :
    toPostfix row = .ok e.postorder := by
  have hfits : Phrase.expr.FitsOn [] := by
    intro o below ho
    cases ho
  obtain ⟨out, waiting, hpost, _, hrun⟩ := reads_of_derives h [] [] hfits
  unfold toPostfix
  rw [List.append_nil, List.append_nil] at hrun
  rw [hrun, toPostfixFrom, Pending.finish_map_op, ← hpost]
  rfl

/-! ## §3  Texts -/

theorem infixToPostfix_of_writes {text : List Char} {e : Expr} (h : Writes text e) :
    infixToPostfix text = .ok e.postorder := by
  obtain ⟨row, hrow, rfl⟩ := h
  rw [infixToPostfix, tokenize_of_derives hrow, toPostfix_of_derives hrow]

/-- What is parsed into the postorder of a tree is no other tree's text. -/
theorem Writes.eq_of_infixToPostfix {text : List Char} {d e : Expr} (h : Writes text d)
    (he : infixToPostfix text = .ok e.postorder) : d = e := by
  rw [infixToPostfix_of_writes h] at he
  exact Expr.postorder_injective (Except.ok.inj he)

/-- **The parser reads the grammar.** A text that the grammar derives is parsed, into the postorder
of its tree, and it is the text of no other tree. -/
theorem infixToPostfix_eq_postorder {text : List Char} {e : Expr} (h : Writes text e) :
    infixToPostfix text = .ok e.postorder ∧ ∀ d, Writes text d → d = e :=
  ⟨infixToPostfix_of_writes h, fun _ hd => hd.eq_of_infixToPostfix (infixToPostfix_of_writes h)⟩

/-- A sign binds weaker than the power behind it and tighter than the product in front of it, and a
sign in an exponent takes the whole of what follows. -/
theorem infixToPostfix_signed_tower :
    Writes "2*-x^[2]^-y".toList
        (.binary .mul (.number ['2']) (.signed .minus (.binary .pow (.letter 'x')
          (.binary .pow (.number ['2']) (.signed .minus (.letter 'y')))))) ∧
      infixToPostfix "2*-x^[2]^-y".toList =
        .ok [.number ['2'], .letter 'x', .number ['2'], .letter 'y', .op .neg, .op .pow, .op .pow,
          .op .neg, .op .mul] := by
  have two : Derives .atom [.number ['2']] (.number ['2']) :=
    .number (by decide) (List.all_eq_true.1 rfl)
  have y : Derives .unary [.letter 'y'] (.letter 'y') := .ofPower (.ofAtom (.letter (by decide)))
  have tower : Derives .unary [.opening '[', .number ['2'], .closing ']', .op .pow,
      .op .neg, .letter 'y']
      (.binary .pow (.number ['2']) (.signed .minus (.letter 'y'))) :=
    .ofPower (.power (.bracket (by decide) (.ofTerm (.ofUnary (.ofPower (.ofAtom two)))))
      (.sign .minus y))
  have text : Writes "2*-x^[2]^-y".toList
      (.binary .mul (.number ['2']) (.signed .minus (.binary .pow (.letter 'x')
        (.binary .pow (.number ['2']) (.signed .minus (.letter 'y')))))) :=
    ⟨_, .ofTerm (.product (.ofUnary (.ofPower (.ofAtom two))) (.inl rfl)
      (.sign .minus (.ofPower (.power (.letter (by decide)) tower)))), by decide⟩
  exact ⟨text, (infixToPostfix_eq_postorder text).1⟩

end InkAlgebra

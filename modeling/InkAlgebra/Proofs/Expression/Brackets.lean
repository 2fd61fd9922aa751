import Mathlib
import InkAlgebra.Proofs.Expression.Acceptance

/-!
# What the parser does with any row

The parser takes every row of tokens whose brackets fit, whether or not the row makes sense, and no
other. This file says what it makes of such a row: nothing is lost but the brackets, operands stay
in the order they were in, and what stands between two brackets that belong together stays together.

Equal tokens can stand in a row more than once, and "what stands between two brackets" are certain
of them. So the conversion is followed with the place of each token at its side (`arranged`); the
places are then left out again.

§1 is rows whose brackets fit, §2 that they are the rows that are taken, §3 the conversion with
places, §4 what is between brackets, §5 the three together.
-/

namespace InkAlgebra

/-! ## §1  Rows whose brackets fit -/

def Token.isBracket : Token → Bool
  | opening _ | closing _ => true
  | _ => false

def Token.isOperand : Token → Bool
  | number _ | letter _ => true
  | _ => false

/-- Rows in which every bracket belongs to another one, of its kind. -/
inductive Balanced : List Token → Prop
  | nil : Balanced []
  | cons {t : Token} {row : List Token} : t.isBracket = false → Balanced row → Balanced (t :: row)
  | pair {c : Char} {inside row : List Token} : Balanced inside → Balanced row →
      Balanced (.opening (openingOf c) :: (inside ++ .closing c :: row))

theorem closes_cons_of_not_isBracket {t : Token} (ht : t.isBracket = false) (brackets : List Char)
    (row : List Token) :
    closes brackets (t :: row) = closes brackets row := by
  cases t with
  | number _ | letter _ | op _ | unknown _ => cases brackets <;> rfl
  | opening _ | closing _ => cases ht

theorem closes_closing (brackets : List Char) (c : Char) (row : List Token) :
    closes (openingOf c :: brackets) (.closing c :: row) = closes brackets row := by
  rw [closes, decide_eq_true rfl, Bool.true_and]

/-- A row whose brackets fit opens nothing and closes nothing. -/
theorem Balanced.closes_append {row : List Token} (h : Balanced row) (brackets : List Char)
    (rest : List Token) :
    closes brackets (row ++ rest) = closes brackets rest := by
  induction h generalizing brackets rest with
  | nil => rfl
  | cons ht _ ih => rw [List.cons_append, closes_cons_of_not_isBracket ht, ih]
  | @pair c inside row _ _ ihInside ihRow =>
      rw [List.cons_append, closes_opening, List.append_assoc, ihInside, List.cons_append,
        closes_closing, ihRow]

/-- What closes the open brackets is, up to the bracket that closes the last of them, a row whose
brackets fit. -/
theorem balanced_of_closes {row : List Token} {brackets : List Char}
    (h : closes brackets row = true) :
    match brackets with
    | [] => Balanced row
    | b :: below => ∃ c inside rest, row = inside ++ .closing c :: rest ∧ b = openingOf c ∧
        Balanced inside ∧ closes below rest = true := by
  -- on the length: behind a bracket the reading goes on where the bracket is closed
  induction hn : row.length using Nat.strong_induction_on generalizing row brackets with
  | _ n ih =>
    subst hn
    cases row with
    | nil =>
        cases brackets with
        | nil => exact .nil
        | cons b below => cases h
    | cons t row =>
        have hshorter : row.length < (t :: row).length := Nat.lt_succ_self _
        cases hbracket : t.isBracket with
        | false =>
            rw [closes_cons_of_not_isBracket hbracket] at h
            have hrow := ih _ hshorter h rfl
            cases brackets with
            | nil => exact .cons hbracket hrow
            | cons b below =>
                obtain ⟨c, inside, rest, rfl, hb, hinside, hrest⟩ := hrow
                exact ⟨c, t :: inside, rest, rfl, hb, .cons hbracket hinside, hrest⟩
        | true =>
            cases t with
            | number _ | letter _ | op _ | unknown _ => cases hbracket
            | closing c =>
                cases brackets with
                | nil => cases h
                | cons b below =>
                    obtain ⟨hb, hrest⟩ := (Bool.and_eq_true ..).mp h
                    exact ⟨c, [], row, rfl, of_decide_eq_true hb, .nil, hrest⟩
            | opening o =>
                rw [closes_opening] at h
                obtain ⟨c, inside, rest, rfl, rfl, hinside, hrest⟩ := ih _ hshorter h rfl
                have hrestShorter : rest.length <
                    (Token.opening (openingOf c) :: (inside ++ .closing c :: rest)).length := by
                  simp only [List.length_cons, List.length_append]
                  omega
                have hrow := ih _ hrestShorter hrest rfl
                cases brackets with
                | nil => exact .pair hinside hrow
                | cons b below =>
                    obtain ⟨c', inside', rest', rfl, hb, hinside', hrest'⟩ := hrow
                    exact ⟨c', .opening (openingOf c) :: (inside ++ .closing c :: inside'), rest',
                      by simp, hb, .pair hinside hinside', hrest'⟩

theorem closes_iff_balanced (row : List Token) : closes [] row = true ↔ Balanced row := by
  constructor
  · exact fun h => balanced_of_closes h
  · intro h
    have hcloses := h.closes_append [] []
    rw [List.append_nil] at hcloses
    exact hcloses

/-! ## §2  Which rows are taken -/

namespace Pending

theorem exists_finish {stack : List Pending} (h : openBrackets stack = []) :
    ∃ out, finish stack = .ok out := by
  induction stack with
  | nil => exact ⟨[], rfl⟩
  | cons p stack ih =>
      cases p with
      | bracket c => cases h
      | op o =>
          obtain ⟨out, hout⟩ := ih h
          exact ⟨.op o :: out, by rw [finish, hout]; rfl⟩

theorem exists_close? {c : Char} {stack : List Pending} {brackets : List Char}
    (h : openBrackets stack = openingOf c :: brackets) :
    ∃ out below, close? c stack = some (out, below) := by
  induction stack with
  | nil => cases h
  | cons p stack ih =>
      cases p with
      | bracket b =>
          obtain ⟨hb, _⟩ := List.cons.inj h
          exact ⟨[], stack, by rw [close?, if_pos hb]⟩
      | op o =>
          obtain ⟨out, below, hclose⟩ := ih h
          exact ⟨.op o :: out, below, by rw [close?, hclose]; rfl⟩

end Pending

/-- A row is taken if it closes what is open and every token has a meaning. -/
theorem exists_toPostfixFrom {stack : List Pending} {row : List Token}
    (hcloses : closes (Pending.openBrackets stack) row = true)
    (hunknown : ∀ c, Token.unknown c ∉ row) :
    ∃ out, toPostfixFrom stack row = .ok out := by
  induction row generalizing stack with
  | nil =>
      have hopen : Pending.openBrackets stack = [] := by
        cases hbrackets : Pending.openBrackets stack with
        | nil => rfl
        | cons b below => rw [hbrackets] at hcloses; cases hcloses
      exact Pending.exists_finish hopen
  | cons t row ih =>
      have hrow : ∀ c, Token.unknown c ∉ row := fun c hc => hunknown c (List.mem_cons_of_mem t hc)
      cases t with
      | number text | letter c =>
          exact exists_map_eq_ok _ (ih (by simpa using hcloses) hrow)
      | opening c => exact ih (by simpa using hcloses) hrow
      | op o =>
          have hopen := (Pending.release_split o stack).2
          have hbelow :
              closes (Pending.openBrackets (.op o :: (Pending.release o stack).2)) row = true := by
            simpa [hopen] using hcloses
          exact exists_map_eq_ok _ (ih hbelow hrow)
      | closing c =>
          cases hbrackets : Pending.openBrackets stack with
          | nil => rw [hbrackets] at hcloses; cases hcloses
          | cons b below =>
              rw [hbrackets] at hcloses
              obtain ⟨hb, hrest⟩ := (Bool.and_eq_true ..).mp hcloses
              rw [of_decide_eq_true hb] at hbrackets
              obtain ⟨out, stack', hclose⟩ := Pending.exists_close? hbrackets
              have hopen := (Pending.close?_split hclose).2
              rw [hbrackets] at hopen
              rw [(List.cons.inj hopen).2] at hrest
              rw [toPostfixFrom, hclose]
              exact exists_map_eq_ok _ (ih hrest hrow)
      | unknown c => exact absurd List.mem_cons_self (hunknown c)

/-- **Acceptance.** The rows that are taken are those without unknown characters whose brackets
fit. -/
theorem exists_toPostfix_iff (row : List Token) :
    (∃ out, toPostfix row = .ok out) ↔ (∀ c, Token.unknown c ∉ row) ∧ Balanced row := by
  rw [← closes_iff_balanced]
  constructor
  · rintro ⟨out, hout⟩
    obtain ⟨_, hcloses, hunknown⟩ := toPostfixFrom_keeps hout
    exact ⟨hunknown, hcloses⟩
  · rintro ⟨hunknown, hcloses⟩
    have hclosesNothing : closes (Pending.openBrackets []) row = true := hcloses
    exact exists_toPostfixFrom hclosesNothing hunknown

/-! ## §3  The conversion with places -/

namespace Pending

def isOp : Pending → Bool
  | op _ => true
  | bracket _ => false

/-- Whether an entry of the stack goes out before an operator that is being read. -/
def givesWayTo (next : Op) : Pending → Bool
  | op o => yieldsTo o next
  | bracket _ => false

/-- The token that an entry of the stack was made of. -/
def token : Pending → Token
  | op o => .op o
  | bracket c => .opening c

theorem release_eq (next : Op) (stack : List Pending) :
    release next stack =
        ((stack.takeWhile (givesWayTo next)).map token, stack.dropWhile (givesWayTo next)) := by
  induction stack with
  | nil => rfl
  | cons p stack ih =>
      cases p with
      | bracket c => rfl
      | op o =>
          rw [release, ih]
          cases hyields : yieldsTo o next with
          | true => simp [givesWayTo, hyields, token]
          | false => simp [givesWayTo, hyields]

theorem eq_of_close? {c : Char} {stack below : List Pending} {out : List Token}
    (h : close? c stack = some (out, below)) :
    out = (stack.takeWhile isOp).map token ∧ below = (stack.dropWhile isOp).tail := by
  induction stack generalizing out with
  | nil => cases h
  | cons p stack ih =>
      cases p with
      | bracket b =>
          rw [close?] at h
          split at h
          · cases h
            exact ⟨rfl, rfl⟩
          · cases h
      | op o =>
          rw [close?] at h
          obtain ⟨⟨out', below'⟩, hclose, heq⟩ := Option.map_eq_some_iff.1 h
          cases heq
          obtain ⟨rfl, rfl⟩ := ih hclose
          exact ⟨rfl, rfl⟩

theorem eq_of_finish {stack : List Pending} {out : List Token} (h : finish stack = .ok out) :
    out = (stack.filter isOp).map token := by
  induction stack generalizing out with
  | nil =>
      cases h
      rfl
  | cons p stack ih =>
      cases p with
      | bracket c => cases h
      | op o =>
          obtain ⟨out', hfinish, rfl⟩ := exists_of_map_eq_ok h
          rw [ih hfinish]
          rfl

end Pending

section

/-- The tokens of a part of the stack, with their places. -/
def placed (stack : List (Pending × ℕ)) : List (Token × ℕ) := stack.map fun (p, i) => (p.token, i)

def isOpAt (x : Pending × ℕ) : Bool := x.1.isOp

def givesWayAt (next : Op) (x : Pending × ℕ) : Bool := x.1.givesWayTo next

/-- The postfix of a row on top of what is open, each token with its place. Where brackets do not
fit it means nothing. -/
def arranged (stack : List (Pending × ℕ)) : List (Token × ℕ) → List (Token × ℕ)
  | [] => placed (stack.filter isOpAt)
  | (.opening c, i) :: rest => arranged ((.bracket c, i) :: stack) rest
  | (.closing _, _) :: rest =>
      placed (stack.takeWhile isOpAt) ++ arranged (stack.dropWhile isOpAt).tail rest
  | (.op o, i) :: rest =>
    placed (stack.takeWhile (givesWayAt o)) ++
      arranged ((.op o, i) :: stack.dropWhile (givesWayAt o)) rest
  | (.unknown _, _) :: rest => arranged stack rest
  | x :: rest => x :: arranged stack rest

variable {stack : List (Pending × ℕ)} {row : List (Token × ℕ)}

theorem map_fst_placed (stack : List (Pending × ℕ)) :
    (placed stack).map (·.1) = (stack.map (·.1)).map Pending.token := by
  simp [placed]

theorem map_fst_takeWhile (p : Pending → Bool) (stack : List (Pending × ℕ)) :
    (stack.takeWhile fun x => p x.1).map (·.1) = (stack.map (·.1)).takeWhile p :=
  List.takeWhile_map.symm

theorem map_fst_dropWhile (p : Pending → Bool) (stack : List (Pending × ℕ)) :
    (stack.dropWhile fun x => p x.1).map (·.1) = (stack.map (·.1)).dropWhile p :=
  List.dropWhile_map.symm

/-- Without the places it is the postfix. -/
theorem map_fst_arranged {out : List Token}
    (h : toPostfixFrom (stack.map (·.1)) (row.map (·.1)) = .ok out) :
    (arranged stack row).map (·.1) = out := by
  induction row generalizing stack out with
  | nil =>
      rw [Pending.eq_of_finish h, arranged, map_fst_placed, List.filter_map]
      rfl
  | cons x row ih =>
      obtain ⟨t, i⟩ := x
      cases t with
      | number text | letter c =>
          obtain ⟨more, hmore, rfl⟩ := exists_of_map_eq_ok h
          exact congrArg (_ :: ·) (ih hmore)
      | opening c =>
          have hopened : toPostfixFrom (((.bracket c, i) :: stack).map (·.1))
              (row.map (·.1)) = .ok out := h
          exact ih hopened
      | unknown c => cases h
      | op o =>
          rw [List.map_cons, toPostfixFrom, Pending.release_eq] at h
          obtain ⟨more, hmore, rfl⟩ := exists_of_map_eq_ok h
          rw [arranged, List.map_append, map_fst_placed]
          congr 1
          · exact congrArg _ (map_fst_takeWhile _ stack)
          · apply ih
            rw [List.map_cons]
            rwa [← map_fst_dropWhile] at hmore
      | closing c =>
          rw [List.map_cons, toPostfixFrom] at h
          split at h
          · rename_i out' below hclose
            obtain ⟨rfl, rfl⟩ := Pending.eq_of_close? hclose
            obtain ⟨more, hmore, rfl⟩ := exists_of_map_eq_ok h
            rw [arranged, List.map_append, map_fst_placed]
            congr 1
            · exact congrArg _ (map_fst_takeWhile _ stack)
            · apply ih
              rw [List.map_tail]
              rwa [← map_fst_dropWhile] at hmore
          · cases h

theorem placed_append (front back : List (Pending × ℕ)) :
    placed (front ++ back) = placed front ++ placed back :=
  List.map_append

theorem filter_isOpAt_dropWhile (stack : List (Pending × ℕ)) :
    (stack.dropWhile isOpAt).tail.filter isOpAt = (stack.dropWhile isOpAt).filter isOpAt := by
  have hhead := List.head?_dropWhile_not isOpAt stack
  cases hdrop : stack.dropWhile isOpAt with
  | nil => rfl
  | cons x below =>
      rw [hdrop] at hhead
      have hx : isOpAt x = false := hhead
      rw [List.tail_cons, List.filter_cons, hx]
      rfl

/-- Of a stack, what goes out goes out in front of what stays. -/
theorem placed_takeWhile_append (p : Pending × ℕ → Bool) (hp : ∀ x, p x = true → isOpAt x = true)
    (stack : List (Pending × ℕ)) :
    placed (stack.takeWhile p) ++ placed ((stack.dropWhile p).filter isOpAt) =
        placed (stack.filter isOpAt) := by
  have hops : (stack.takeWhile p).filter isOpAt = stack.takeWhile p :=
    List.filter_eq_self.2 fun x hx => hp x (List.mem_takeWhile_imp hx)
  rw [← placed_append]
  conv_lhs => rw [← hops]
  rw [← List.filter_append, List.takeWhile_append_dropWhile]

theorem isOpAt_of_givesWayAt {next : Op} (x : Pending × ℕ) (h : givesWayAt next x = true) :
    isOpAt x = true := by
  obtain ⟨p, i⟩ := x
  cases p with
  | op o => rfl
  | bracket c => cases h

/-- **Nothing is lost.** The postfix holds the operators that were open and the tokens of the row,
each in its own place once, without brackets and unknown characters. -/
theorem arranged_perm (stack : List (Pending × ℕ)) (row : List (Token × ℕ)) :
    (arranged stack row).Perm (placed (stack.filter isOpAt) ++ row.filter (·.1.isPlaced)) := by
  induction row generalizing stack with
  | nil => rw [arranged, List.filter_nil, List.append_nil]
  | cons x row ih =>
      obtain ⟨t, i⟩ := x
      cases t with
      | number text | letter c => exact ((ih stack).cons _).trans List.perm_middle.symm
      | opening c => exact ih ((.bracket c, i) :: stack)
      | unknown c => exact ih stack
      | op o =>
          have hbehind := ih ((.op o, i) :: stack.dropWhile (givesWayAt o))
          rw [arranged, ← placed_takeWhile_append _ isOpAt_of_givesWayAt, List.append_assoc]
          exact (hbehind.trans List.perm_middle.symm).append_left _
      | closing c =>
          have hbehind := ih (stack.dropWhile isOpAt).tail
          rw [filter_isOpAt_dropWhile] at hbehind
          rw [arranged, ← placed_takeWhile_append isOpAt (fun _ h => h), List.append_assoc]
          exact hbehind.append_left _

theorem filter_isOperand_placed (stack : List (Pending × ℕ)) :
    (placed stack).filter (·.1.isOperand) = [] := by
  refine List.filter_eq_nil_iff.2 fun x hx => ?_
  obtain ⟨⟨p, i⟩, _, rfl⟩ := List.mem_map.1 hx
  cases p <;> simp [Pending.token, Token.isOperand]

/-- **Operands** stay in their order. -/
theorem filter_isOperand_arranged (stack : List (Pending × ℕ)) (row : List (Token × ℕ)) :
    (arranged stack row).filter (·.1.isOperand) = row.filter (·.1.isOperand) := by
  induction row generalizing stack with
  | nil => exact filter_isOperand_placed _
  | cons x row ih =>
      obtain ⟨t, i⟩ := x
      cases t with
      | number text | letter c => exact congrArg (_ :: ·) (ih stack)
      | opening c => exact ih ((.bracket c, i) :: stack)
      | unknown c => exact ih stack
      | op o | closing c =>
          rw [arranged, List.filter_append, filter_isOperand_placed, ih]
          rfl

/-! ## §4  Between brackets -/

/-- What has gone out does not change with what follows. -/
theorem exists_arranged_append (stack : List (Pending × ℕ)) (before : List (Token × ℕ)) :
    ∃ out stack', ∀ rest, arranged stack (before ++ rest) = out ++ arranged stack' rest := by
  induction before generalizing stack with
  | nil => exact ⟨[], stack, fun _ => rfl⟩
  | cons x before ih =>
      obtain ⟨t, i⟩ := x
      -- what a token sends goes out in front of what the others send
      have hsent : ∀ (sent : List (Token × ℕ)) (below : List (Pending × ℕ)),
          (∀ rest, arranged stack ((t, i) :: rest) = sent ++ arranged below rest) →
            ∃ out stack', ∀ rest, arranged stack ((t, i) :: before ++ rest) =
                out ++ arranged stack' rest := by
        intro sent below hstep
        obtain ⟨out, stack', hout⟩ := ih below
        exact ⟨sent ++ out, stack', fun rest => by
          rw [List.cons_append, hstep, hout, List.append_assoc]⟩
      cases t with
      | number text => exact hsent [(.number text, i)] stack fun _ => rfl
      | letter c => exact hsent [(.letter c, i)] stack fun _ => rfl
      | opening c => exact hsent [] ((.bracket c, i) :: stack) fun _ => rfl
      | unknown c => exact hsent [] stack fun _ => rfl
      | op o => exact hsent _ _ fun _ => rfl
      | closing c => exact hsent _ _ fun _ => rfl

/-- Above a bracket, or above nothing, a part of the stack is by itself. -/
theorem takeWhile_dropWhile_append {p : Pending × ℕ → Bool} {base : List (Pending × ℕ)}
    (hbase : ∀ x ∈ base.head?, p x = false) (ops : List (Pending × ℕ)) :
    (ops ++ base).takeWhile p = ops.takeWhile p ∧
      (ops ++ base).dropWhile p = ops.dropWhile p ++ base := by
  induction ops with
  | nil =>
      cases base with
      | nil => exact ⟨rfl, rfl⟩
      | cons x below =>
          have hx := hbase x rfl
          simp [hx]
  | cons x ops ih =>
      cases hx : p x with
      | true => simpa [hx] using ih
      | false => simp [hx]

/-- A closing bracket lets out the operators above an opening one. -/
theorem arranged_closing {left : List (Pending × ℕ)} (hleft : ∀ x ∈ left, isOpAt x = true)
    (b : Char) (i : ℕ) (below : List (Pending × ℕ)) (c : Char) (j : ℕ) (rest : List (Token × ℕ)) :
    arranged (left ++ (.bracket b, i) :: below) ((.closing c, j) :: rest) =
        placed left ++ arranged below rest := by
  have hbase : ∀ x ∈ ((.bracket b, i) :: below : List (Pending × ℕ)).head?, isOpAt x = false := by
    rintro x ⟨⟩
    rfl
  obtain ⟨htake, hdrop⟩ := takeWhile_dropWhile_append hbase left
  rw [arranged, htake, hdrop, List.takeWhile_eq_self_iff.2 hleft, List.dropWhile_eq_nil_iff.2 hleft]
  rfl

/-- **Rows whose brackets fit** work above a bracket, or above nothing, and leave operators
there. -/
theorem exists_arranged_of_balanced {inside : List Token} (h : Balanced inside)
    {row : List (Token × ℕ)} (hrow : row.map (·.1) = inside) (ops : List (Pending × ℕ))
    (hops : ∀ x ∈ ops, isOpAt x = true) :
    ∃ out left, (∀ x ∈ left, isOpAt x = true) ∧ ∀ base : List (Pending × ℕ),
      (∀ x ∈ base.head?, isOpAt x = false) →
      ∀ rest, arranged (ops ++ base) (row ++ rest) = out ++ arranged (left ++ base) rest := by
  induction h generalizing row ops with
  | nil =>
      obtain rfl := List.map_eq_nil_iff.1 hrow
      exact ⟨[], ops, hops, fun _ _ _ => rfl⟩
  | @cons t inside ht _ ih =>
      obtain ⟨⟨t, i⟩, row, rfl, rfl, hbehind⟩ := List.map_eq_cons_iff.1 hrow
      cases t with
      | opening c | closing c => cases ht
      | number text | letter c =>
          obtain ⟨out, left, hleft, hout⟩ := ih hbehind ops hops
          exact ⟨_ :: out, left, hleft, fun base hbase rest =>
            congrArg (_ :: ·) (hout base hbase rest)⟩
      | unknown c => exact ih hbehind ops hops
      | op o =>
          have hops' : ∀ x ∈ (.op o, i) :: ops.dropWhile (givesWayAt o), isOpAt x = true :=
            List.forall_mem_cons.2 ⟨rfl, fun x hx => hops x ((List.dropWhile_sublist _).subset hx)⟩
          obtain ⟨out, left, hleft, hout⟩ := ih hbehind _ hops'
          refine ⟨placed (ops.takeWhile (givesWayAt o)) ++ out, left, hleft,
            fun base hbase rest => ?_⟩
          have hstays : ∀ x ∈ base.head?, givesWayAt o x = false := fun x hx =>
            Bool.eq_false_iff.2 fun hgives =>
              Bool.eq_false_iff.1 (hbase x hx) (isOpAt_of_givesWayAt x hgives)
          obtain ⟨htake, hdrop⟩ := takeWhile_dropWhile_append hstays ops
          rw [List.cons_append, arranged, htake, hdrop, ← List.cons_append,
            hout base hbase, List.append_assoc]
  | @pair c inside row' _ _ ihInside ihRow =>
      obtain ⟨⟨t, i⟩, row, rfl, rfl, hbehind⟩ := List.map_eq_cons_iff.1 hrow
      obtain ⟨inner, outer, rfl, hinner, houter⟩ := List.map_eq_append_iff.1 hbehind
      obtain ⟨⟨t, j⟩, outer, rfl, rfl, hlast⟩ := List.map_eq_cons_iff.1 houter
      obtain ⟨out, left, hleft, hout⟩ := ihInside hinner [] (by simp)
      obtain ⟨out', left', hleft', hout'⟩ := ihRow hlast ops hops
      refine ⟨out ++ placed left ++ out', left', hleft', fun base hbase rest => ?_⟩
      -- the closing bracket lets out what the row inside has left, down to the opening one
      have hinside := hout ((.bracket (openingOf c), i) :: (ops ++ base)) (by rintro x ⟨⟩; rfl)
      have hclosing : arranged (left ++ (.bracket (openingOf c), i) :: (ops ++ base))
          ((.closing c, j) :: (outer ++ rest)) =
          placed left ++ arranged (ops ++ base) (outer ++ rest) :=
            arranged_closing hleft _ _ _ _ _ _
      calc arranged (ops ++ base)
              ((.opening (openingOf c), i) :: (inner ++ (.closing c, j) :: outer) ++ rest)
          = arranged ((.bracket (openingOf c), i) :: (ops ++ base))
              (inner ++ (.closing c, j) :: (outer ++ rest)) := by
            rw [List.cons_append, List.append_assoc]
            rfl
        _ = out ++ (placed left ++ arranged (ops ++ base) (outer ++ rest)) := by
            rw [← hclosing]
            exact hinside _
        _ = out ++ placed left ++ out' ++ arranged (left' ++ base) rest := by
            rw [hout' base hbase]
            simp only [List.append_assoc]

end

/-! ## §5  Arrangements -/

/-- Whether a postfix is a row in another order, both with the places that its tokens have in the
row: the tokens of the row without brackets, with operands in their order, and with the tokens
between two brackets that belong together next to each other. -/
structure IsArrangement (row post : List (Token × ℕ)) : Prop where
  perm : post.Perm (row.filter fun x => !x.1.isBracket)
  operands : post.filter (·.1.isOperand) = row.filter (·.1.isOperand)
  blocks : ∀ before o i inside c j behind,
    row = before ++ (.opening o, i) :: (inside ++ (.closing c, j) :: behind) →
      Balanced (inside.map (·.1)) →
      ∃ front block back, post = front ++ (block ++ back) ∧
        block.Perm (inside.filter fun x => !x.1.isBracket)

theorem filter_isPlaced_of_known {row : List (Token × ℕ)} (h : ∀ x ∈ row, ∀ c, x.1 ≠ .unknown c) :
    row.filter (·.1.isPlaced) = row.filter fun x => !x.1.isBracket := by
  refine List.filter_congr fun x hx => ?_
  obtain ⟨t, i⟩ := x
  cases t with
  | unknown c => exact absurd rfl (h _ hx c)
  | number _ | letter _ | op _ | opening _ | closing _ => rfl

/-- What a row whose brackets fit sends and leaves is what it holds. -/
theorem placed_perm_of_balanced {inside : List (Token × ℕ)} {out : List (Token × ℕ)}
    {left : List (Pending × ℕ)} (hleft : ∀ x ∈ left, isOpAt x = true)
    (hout : arranged [] inside = out ++ arranged left []) :
    (out ++ placed left).Perm (inside.filter (·.1.isPlaced)) := by
  have hperm := arranged_perm [] inside
  rw [hout, arranged, List.filter_eq_self.2 hleft] at hperm
  exact hperm

theorem isArrangement_arranged {row : List (Token × ℕ)}
    (hknown : ∀ x ∈ row, ∀ c, x.1 ≠ .unknown c) :
    IsArrangement row (arranged [] row) where
  perm := by
    rw [← filter_isPlaced_of_known hknown]
    exact arranged_perm [] row
  operands := filter_isOperand_arranged [] row
  blocks := by
    rintro before o i inside c j behind rfl hinside
    obtain ⟨front, stack, hfront⟩ := exists_arranged_append [] before
    obtain ⟨out, left, hleft, hout⟩ := exists_arranged_of_balanced hinside rfl [] (by simp)
    have hwhole : arranged [] (before ++ (.opening o, i) :: (inside ++ (.closing c, j) :: behind)) =
        front ++ (out ++ placed left ++ arranged stack behind) := by
      rw [hfront, List.append_assoc, ← arranged_closing hleft o i stack c j behind]
      exact congrArg (front ++ ·) (hout ((.bracket o, i) :: stack) (by rintro x ⟨⟩; rfl) _)
    have halone : arranged [] inside = out ++ arranged left [] := by
      have hrun := hout [] (by simp) []
      simpa using hrun
    have hinsideKnown : ∀ x ∈ inside, ∀ c, x.1 ≠ .unknown c := fun x hx => hknown x (by simp [hx])
    refine ⟨front, out ++ placed left, arranged stack behind, hwhole, ?_⟩
    rw [← filter_isPlaced_of_known hinsideKnown]
    exact placed_perm_of_balanced hleft halone

/-- **Any row.** The rows that are taken are those without unknown characters whose brackets fit,
sensible or not, and the postfix of each is an arrangement of it. -/
theorem toPostfix_arranges_balanced (row : List Token) :
    ((∃ out, toPostfix row = .ok out) ↔ (∀ c, Token.unknown c ∉ row) ∧ Balanced row) ∧
      ∀ out, toPostfix row = .ok out → ∃ post, post.map (·.1) = out ∧
          IsArrangement row.zipIdx post := by
  refine ⟨exists_toPostfix_iff row, fun out hout => ⟨arranged [] row.zipIdx, ?_, ?_⟩⟩
  · apply map_fst_arranged
    rwa [List.zipIdx_map_fst]
  · have hunknown := ((exists_toPostfix_iff row).1 ⟨out, hout⟩).1
    apply isArrangement_arranged
    rintro ⟨t, i⟩ hx c rfl
    exact hunknown c (List.fst_mem_of_mem_zipIdx hx)

/-- A row with operations that lack operands is taken all the same, and the contents of its brackets
stay together. -/
theorem strayOperators_arranged :
    toPostfix (tokenize "\x7bx[2+y]*\x7d-".toList) =
        .ok [.letter 'x', .number ['2'], .letter 'y', .op .add, .op .mul, .op .sub] ∧
      ∃ post, post.map (·.1) = [.letter 'x', .number ['2'], .letter 'y',
        .op .add, .op .mul, .op .sub] ∧
        IsArrangement (tokenize "\x7bx[2+y]*\x7d-".toList).zipIdx post := by
  have hout : toPostfix (tokenize "\x7bx[2+y]*\x7d-".toList) =
      .ok [.letter 'x', .number ['2'], .letter 'y', .op .add, .op .mul, .op .sub] := by decide
  exact ⟨hout, (toPostfix_arranges_balanced _).2 _ hout⟩

end InkAlgebra

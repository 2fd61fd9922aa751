import Mathlib
import InkAlgebra.Proofs.Expression.Acceptance
import InkAlgebra.Proofs.Expression.Canonical
import InkAlgebra.Proofs.Expression.Parsing

/-!
# Texts with operands apart

Where no operand of a text touches another, the tokens of the text come in an order that the count
of values can judge, so that the parser and its machine accept expressions of the grammar and
nothing else. Where operands touch, the text is no expression, whatever is accepted.

The canonical form sees to it that operands are apart, with one exception. A decimal point gets no
`*` on either side, and it is part of a number: behind a letter or a closing bracket, or in front of
a letter or an opening bracket, it makes two operands touch.

§1 is texts with operands apart, §2 their tokens. §3 says that the choice of letters does not
matter, §4 is what is accepted, §5 what the canonical form leaves.
-/

namespace InkAlgebra

/-! ## §1  Operands apart -/

/-- A class of characters that leaves out the six brackets has no bracket in it. -/
theorem not_bracket {p : Char → Bool} (hp : ['(', '[', '\x7b', ')', ']', '\x7d'].any p = false)
    {c : Char} (h : p c = true) : isOpeningChar c = false ∧ isClosingChar c = false := by
  have hne : c ∉ ['(', '[', '\x7b', ')', ']', '\x7d'] := by
    intro hmem
    exact List.any_eq_false.1 hp c hmem h
  simp only [List.mem_cons, not_or] at hne
  obtain ⟨hround, hsquare, hbrace, hround', hsquare', hbrace', _⟩ := hne
  simp [isOpeningChar, isClosingChar, hround, hsquare, hbrace, hround', hsquare', hbrace']

/-- What is numeric is neither a letter nor a bracket. -/
theorem classes_of_isNumeric {c : Char} (h : isNumeric c = true) :
    isLetter c = false ∧ isOpeningChar c = false ∧ isClosingChar c = false := by
  have hletter : isLetter c = false := by
    cases hc : isLetter c with
    | false => rfl
    | true => exact absurd h (Bool.eq_false_iff.1 (isNumeric_eq_false_of_isLetter hc))
  exact ⟨hletter, not_bracket rfl h⟩

theorem classes_of_isLetter {c : Char} (h : isLetter c = true) :
    isNumeric c = false ∧ isOpeningChar c = false ∧ isClosingChar c = false :=
  ⟨isNumeric_eq_false_of_isLetter h, not_bracket rfl h⟩

theorem isNumeric_of_isDigit {c : Char} (h : c.isDigit = true) : isNumeric c = true := by
  simp [isNumeric, h]

/-- Whether an operand can end with a character. -/
def endsOperand (c : Char) : Bool := isNumeric c || isLetter c || isClosingChar c

/-- Whether an operand can start with a character. -/
def startsOperand (c : Char) : Bool := isNumeric c || isLetter c || isOpeningChar c

/-- Whether one operand ends with a character and another starts with the next. -/
def touches (a b : Char) : Bool := endsOperand a && startsOperand b && !(isNumeric a && isNumeric b)

def OperandsApart (text : List Char) : Prop := text.IsChain fun a b => touches a b = false

instance (text : List Char) : Decidable (OperandsApart text) :=
  inferInstanceAs (Decidable (text.IsChain _))

theorem OperandsApart.append_cons {front back : List Char} {c : Char}
    (hfront : OperandsApart front) (hback : OperandsApart back) (hends : endsOperand c = false)
    (hstarts : startsOperand c = false) :
    OperandsApart (front ++ c :: back) := by
  refine List.isChain_append.2 ⟨hfront, List.isChain_cons.2 ⟨?_, hback⟩, ?_⟩
  · intro d _
    simp [touches, hends]
  · intro d _ d' hd'
    obtain rfl : c = d' := by simpa using hd'
    simp [touches, hstarts]

theorem operandsApart_of_isNumeric {text : List Char} (h : ∀ c ∈ text, isNumeric c = true) :
    OperandsApart text := by
  have hpairs : text.Pairwise fun a b => touches a b = false := by
    refine List.pairwise_of_forall_mem_list fun a ha b hb => ?_
    simp [touches, h a ha, h b hb]
  exact hpairs.isChain

theorem exists_source_operation (o : Operation) :
    ∃ c, (Token.op o.op).source = [c] ∧ endsOperand c = false ∧ startsOperand c = false := by
  cases o with
  | add => exact ⟨'+', rfl, by decide, by decide⟩
  | sub => exact ⟨'-', rfl, by decide, by decide⟩
  | mul => exact ⟨'*', rfl, by decide, by decide⟩
  | div => exact ⟨'/', rfl, by decide, by decide⟩
  | pow => exact ⟨'^', rfl, by decide, by decide⟩

/-- The grammar never puts two operands side by side. -/
theorem Derives.operandsApart {p : Phrase} {row : List Token} {e : Expr} (h : Derives p row e) :
    OperandsApart (row.flatMap Token.source) := by
  induction h with
  | ofTerm _ ih | ofUnary _ ih | ofPower _ ih | ofAtom _ ih => exact ih
  | @sum _ _ _ _ o _ _ _ ihLeft ihRight | @product _ _ _ _ o _ _ _ ihLeft ihRight =>
      obtain ⟨c, hsource, hends, hstarts⟩ := exists_source_operation o
      simpa [hsource] using ihLeft.append_cons ihRight hends hstarts
  | power _ _ ihLeft ihRight =>
      obtain ⟨c, hsource, hends, hstarts⟩ := exists_source_operation .pow
      simpa [hsource] using ihLeft.append_cons ihRight hends hstarts
  | sign s _ ih =>
      have hnil : OperandsApart [] := List.isChain_nil
      cases s with
      | plus => exact hnil.append_cons ih (by decide) (by decide)
      | minus => exact hnil.append_cons ih (by decide) (by decide)
  | number _ hnumeric => simpa [Token.source, Token.name] using operandsApart_of_isNumeric hnumeric
  | letter _ => simp [Token.source, Token.name, OperandsApart]
  | @bracket row _ o c hpair _ ih =>
      have hopen : endsOperand o = false ∧ startsOperand c = false := by
        rcases mem_bracketPairs.1 hpair with ⟨rfl, rfl⟩ | ⟨rfl, rfl⟩ | ⟨rfl, rfl⟩ <;> decide
      have htext : (Token.opening o :: row ++ [Token.closing c]).flatMap Token.source =
          o :: (row.flatMap Token.source ++ [c]) := by
        simp [Token.source, Token.name]
      rw [htext]
      refine List.isChain_cons.2 ⟨?_, List.isChain_append.2 ⟨ih, List.isChain_singleton _, ?_⟩⟩
      · intro d _
        simp [touches, hopen.1]
      · intro d _ d' hd'
        obtain rfl : c = d' := by simpa using hd'
        simp [touches, hopen.2]

/-! ## §2  Splitting -/

/-- No character is a sign by itself. -/
theorem isUnary_of_ofChar? {c : Char} {o : Op} (h : Op.ofChar? c = some o) : o.isUnary = false := by
  unfold Op.ofChar? at h
  split at h <;> cases h <;> rfl

/-- The kinds of characters that are not numeric. -/
theorem ofChar_cases (signExpected : Bool) (c : Char) :
    (isOpeningChar c = true ∧ Token.ofChar signExpected c = .opening c) ∨
    (isClosingChar c = true ∧ Token.ofChar signExpected c = .closing c) ∨
    (isLetter c = true ∧ Token.ofChar signExpected c = .letter c) ∨
    (∃ o : Op, (o.isUnary = true → signExpected = true) ∧ Token.ofChar signExpected c = .op o) ∨
    Token.ofChar signExpected c = .unknown c := by
  unfold Token.ofChar
  split_ifs with hopening hclosing hletter hsign
  · exact .inl ⟨by simpa [isOpeningChar] using hopening, rfl⟩
  · exact .inr (.inl ⟨by simpa [isClosingChar] using hclosing, rfl⟩)
  · exact .inr (.inr (.inl ⟨hletter, rfl⟩))
  · cases ho : Op.ofChar? c with
    | none => exact .inr (.inr (.inr (.inr rfl)))
    | some o => exact .inr (.inr (.inr (.inl ⟨o.asSign, fun _ => hsign, rfl⟩)))
  · cases ho : Op.ofChar? c with
    | none => exact .inr (.inr (.inr (.inr rfl)))
    | some o =>
        refine .inr (.inr (.inr (.inl ⟨o, fun hunary => ?_, rfl⟩)))
        rw [isUnary_of_ofChar? ho] at hunary
        cases hunary

theorem exists_consNumeric (c : Char) (row : List Token) :
    ∃ text rest, Token.consNumeric c row = .number text :: rest ∧
      ∀ d, Token.consNumeric d (Token.consNumeric c row) = .number (d :: text) :: rest := by
  cases row with
  | nil => exact ⟨[c], [], rfl, fun _ => rfl⟩
  | cons t rest =>
      cases t with
      | number text => exact ⟨c :: text, rest, rfl, fun _ => rfl⟩
      | letter _ | op _ | opening _ | closing _ | unknown _ => exact ⟨[c], _, rfl, fun _ => rfl⟩

theorem tokenizeFrom_of_isNumeric {c : Char} (signExpected : Bool) (rest : List Char)
    (h : isNumeric c = true) :
    tokenizeFrom signExpected (c :: rest) = Token.consNumeric c (tokenizeFrom false rest) := by
  rw [tokenizeFrom, if_pos h]

theorem source_op_ofChar {c : Char} {o : Op} (h : Op.ofChar? c = some o) :
    (Token.op o).source = [c] ∧ (Token.op o.asSign).source = [c] := by
  unfold Op.ofChar? at h
  split at h
  all_goals cases h
  all_goals exact ⟨rfl, rfl⟩

theorem source_ofChar (signExpected : Bool) (c : Char) :
    (Token.ofChar signExpected c).source = [c] := by
  unfold Token.ofChar
  split_ifs with hopening hclosing hletter hsign
  · rfl
  · rfl
  · rfl
  · cases ho : Op.ofChar? c with
    | none => rfl
    | some o => exact (source_op_ofChar ho).2
  · cases ho : Op.ofChar? c with
    | none => rfl
    | some o => exact (source_op_ofChar ho).1

/-- Splitting loses nothing. -/
theorem flatMap_source_tokenizeFrom (signExpected : Bool) (text : List Char) :
    (tokenizeFrom signExpected text).flatMap Token.source = text := by
  induction text generalizing signExpected with
  | nil => rfl
  | cons c rest ih =>
      by_cases hc : isNumeric c = true
      · rw [tokenizeFrom_of_isNumeric signExpected rest hc, Token.flatMap_source_consNumeric, ih]
      · rw [tokenizeFrom_of_not_isNumeric signExpected rest (Bool.eq_false_iff.2 hc),
          List.flatMap_cons, source_ofChar, ih]
        rfl

theorem isProper_of_mem_tokenizeFrom {text : List Char} {signExpected : Bool} {t : Token}
    (h : t ∈ tokenizeFrom signExpected text) : t.IsProper := by
  induction text generalizing signExpected t with
  | nil => cases h
  | cons c rest ih =>
      by_cases hc : isNumeric c = true
      · rw [tokenizeFrom_of_isNumeric signExpected rest hc] at h
        -- the number that `c` joins holds numeric characters only
        have hone : Token.IsProper (.number [c]) := ⟨by simp, by simpa using hc⟩
        cases hrow : tokenizeFrom false rest with
        | nil =>
            rw [hrow] at h
            exact List.mem_singleton.1 h ▸ hone
        | cons s more =>
            have hmore : ∀ t ∈ s :: more, t.IsProper := fun t ht => ih (hrow ▸ ht)
            rw [hrow] at h
            cases s with
            | number text =>
                rcases List.mem_cons.1 h with rfl | h
                · have htext := hmore _ List.mem_cons_self
                  exact ⟨by simp, List.forall_mem_cons.2 ⟨hc, htext.2⟩⟩
                · exact hmore t (List.mem_cons_of_mem _ h)
            | letter _ | op _ | opening _ | closing _ | unknown _ =>
                rcases List.mem_cons.1 h with rfl | h
                · exact hone
                · exact hmore t h
      · rw [tokenizeFrom_of_not_isNumeric signExpected rest (Bool.eq_false_iff.2 hc)] at h
        rcases List.mem_cons.1 h with rfl | h
        · rcases ofChar_cases signExpected c with
            ⟨hkind, ht⟩ | ⟨hkind, ht⟩ | ⟨hkind, ht⟩ | ⟨o, _, ht⟩ | ht
          all_goals rw [ht]
          · exact hkind
          · exact hkind
          · exact hkind
          · trivial
          · trivial
        · exact ih h

/-- An `=` has no meaning in an expression. -/
theorem unknown_mem_tokenizeFrom {text : List Char} (signExpected : Bool) (h : '=' ∈ text) :
    .unknown '=' ∈ tokenizeFrom signExpected text := by
  induction text generalizing signExpected with
  | nil => cases h
  | cons c rest ih =>
      by_cases hc : isNumeric c = true
      · have hrest : '=' ∈ rest := by
          rcases List.mem_cons.1 h with rfl | hrest
          · exact absurd hc (by decide)
          · exact hrest
        rw [tokenizeFrom_of_isNumeric signExpected rest hc]
        -- the number that `c` joins is not the character that is looked for
        cases hrow : tokenizeFrom false rest with
        | nil =>
            have hmem := ih false hrest
            rw [hrow] at hmem
            cases hmem
        | cons t more =>
            have hmem := ih false hrest
            rw [hrow] at hmem
            cases t with
            | number text =>
                rcases List.mem_cons.1 hmem with heq | hmem
                · cases heq
                · exact List.mem_cons_of_mem _ hmem
            | letter _ | op _ | opening _ | closing _ | unknown _ =>
                exact List.mem_cons_of_mem _ hmem
      · rw [tokenizeFrom_of_not_isNumeric signExpected rest (Bool.eq_false_iff.2 hc)]
        rcases List.mem_cons.1 h with rfl | hrest
        · have hequals : Token.ofChar signExpected '=' = .unknown '=' := by
            cases signExpected <;> rfl
          rw [hequals]
          exact List.mem_cons_self
        · exact List.mem_cons_of_mem _ (ih _ hrest)

/-- What is parsed has no `=` in it. -/
theorem equals_not_mem_of_parsed {text : List Char} {post : List Token}
    (h : infixToPostfix text = .ok post) :
    '=' ∉ text := by
  intro hmem
  obtain ⟨_, _, hunknown⟩ := toPostfixFrom_keeps h
  exact hunknown '=' (unknown_mem_tokenizeFrom true hmem)

/-- Behind a character that ends an operand none starts, unless both belong to one number. -/
theorem OperandsApart.head?_behind {c : Char} {rest : List Char} (h : OperandsApart (c :: rest))
    (hends : endsOperand c = true) (hnumeric : isNumeric c = true → startsNumeric rest = false) :
    rest.head?.any startsOperand = false := by
  cases rest with
  | nil => rfl
  | cons d more =>
      have htouch := (List.isChain_cons_cons.1 h).1
      cases hc : isNumeric c with
      | false => simpa [touches, hends, hc] using htouch
      | true =>
          have hd : isNumeric d = false := hnumeric hc
          simpa [touches, hends, hd] using htouch

/-- **Operands apart.** A text in which no operand touches another is split into a row in which
operands stand only where one is expected. -/
theorem spaced_tokenizeFrom {text : List Char} {expecting : Bool}
    (hunknown : ∀ c, .unknown c ∉ tokenizeFrom expecting text) (happart : OperandsApart text)
    (hhead : expecting = false → text.head?.any startsOperand = false) :
    Spaced expecting (tokenizeFrom expecting text) := by
  induction text generalizing expecting with
  | nil => trivial
  | cons c rest ih =>
      have hrest : OperandsApart rest := (List.isChain_cons.1 happart).2
      have hexpecting : startsOperand c = true → expecting = true := by
        intro hstarts
        cases expecting with
        | true => rfl
        | false => exact absurd (hhead rfl) (by simp [hstarts])
      by_cases hc : isNumeric c = true
      · obtain rfl := hexpecting (by simp [startsOperand, hc])
        rw [tokenizeFrom_of_isNumeric true rest hc] at hunknown ⊢
        cases hd : startsNumeric rest with
        | false =>
            rw [consNumeric_tokenizeFrom c hd] at hunknown ⊢
            exact ⟨rfl, ih (fun d hmem => hunknown d (List.mem_cons_of_mem _ hmem)) hrest
              fun _ => happart.head?_behind (by simp [endsOperand, hc]) fun _ => hd⟩
        | true =>
            obtain ⟨d, more, rfl⟩ : ∃ d more, rest = d :: more :=
              List.exists_cons_of_ne_nil (by rintro rfl; cases hd)
            have hd' : isNumeric d = true := hd
            have hsame : tokenizeFrom false (d :: more) = tokenizeFrom true (d :: more) := by
              rw [tokenizeFrom_of_isNumeric false more hd', tokenizeFrom_of_isNumeric true more hd']
            obtain ⟨digits, row, hrow, hjoin⟩ := exists_consNumeric d (tokenizeFrom false more)
            rw [hsame, tokenizeFrom_of_isNumeric true more hd', hjoin] at hunknown ⊢
            have hmore : Spaced true (tokenizeFrom true (d :: more)) := by
              refine ih ?_ hrest (by simp)
              intro x hx
              rw [tokenizeFrom_of_isNumeric true more hd', hrow] at hx
              exact hunknown x (List.mem_cons_of_mem _ (by simpa using hx))
            rwa [tokenizeFrom_of_isNumeric true more hd', hrow] at hmore
      · have hc' : isNumeric c = false := Bool.eq_false_iff.2 hc
        rw [tokenizeFrom_of_not_isNumeric expecting rest hc'] at hunknown ⊢
        have hmore : ∀ e : Bool, (Token.ofChar expecting c).invitesSign = e →
            (e = false → endsOperand c = true) → Spaced e (tokenizeFrom e rest) := by
          rintro e rfl hends
          exact ih (fun d hmem => hunknown d (List.mem_cons_of_mem _ hmem)) hrest
            fun he => happart.head?_behind (hends he) fun h => absurd h hc
        rcases ofChar_cases expecting c with ⟨hkind, ht⟩ | ⟨hkind, ht⟩ | ⟨hkind,
          ht⟩ | ⟨o, hsign, ht⟩ | ht
        · rw [ht] at hmore ⊢
          exact ⟨hexpecting (by simp [startsOperand, hkind]),
            hmore true rfl (absurd · Bool.false_ne_true.symm)⟩
        · rw [ht] at hmore ⊢
          exact hmore false rfl fun _ => by simp [endsOperand, hkind]
        · rw [ht] at hmore ⊢
          exact ⟨hexpecting (by simp [startsOperand, hkind]),
            hmore false rfl fun _ => by simp [endsOperand, hkind]⟩
        · rw [ht] at hmore ⊢
          exact ⟨hsign, hmore true rfl (absurd · Bool.false_ne_true.symm)⟩
        · exact absurd (by rw [ht]; exact List.mem_cons_self) (hunknown c)

/-! ## §3  Other letters -/

/-- Whether a map of characters puts letters for letters and changes nothing else. -/
def Relabels (f : Char → Char) : Prop := ∀ c, f c = c ∨ (isLetter c = true ∧ isLetter (f c) = true)

namespace Relabels

variable {f : Char → Char}

theorem eq_self (h : Relabels f) {c : Char} (hc : isLetter c = false) : f c = c := by
  rcases h c with hsame | ⟨hletter, _⟩
  · exact hsame
  · rw [hc] at hletter
    cases hletter

/-- What is no letter comes from itself. -/
theorem eq_of_apply_eq (h : Relabels f) {c d : Char} (hd : isLetter d = false) (hcd : f c = d) :
    c = d := by
  rcases h c with hsame | ⟨_, hletter⟩
  · exact hsame.symm.trans hcd
  · rw [hcd, hd] at hletter
    cases hletter

theorem isLetter_apply (h : Relabels f) (c : Char) : isLetter (f c) = isLetter c := by
  rcases h c with hsame | ⟨hletter, hletter'⟩
  · rw [hsame]
  · rw [hletter, hletter']

end Relabels

theorem touches_relabelled {f : Char → Char} (hf : Relabels f) (a b : Char) :
    touches (f a) (f b) = touches a b := by
  have hclasses : ∀ c, isNumeric (f c) = isNumeric c ∧ isOpeningChar (f c) = isOpeningChar c ∧
      isClosingChar (f c) = isClosingChar c := by
    intro c
    rcases hf c with hsame | ⟨hletter, hletter'⟩
    · rw [hsame]
      exact ⟨rfl, rfl, rfl⟩
    · obtain ⟨hnumeric, hopening, hclosing⟩ := classes_of_isLetter hletter
      obtain ⟨hnumeric', hopening', hclosing'⟩ := classes_of_isLetter hletter'
      rw [hnumeric, hnumeric', hopening, hopening', hclosing, hclosing']
      exact ⟨rfl, rfl, rfl⟩
  simp only [touches, endsOperand, startsOperand, hf.isLetter_apply, hclasses]

theorem operandsApart_relabelled {f : Char → Char} (hf : Relabels f) {text : List Char} :
    OperandsApart (text.map f) ↔ OperandsApart text := by
  unfold OperandsApart
  rw [List.isChain_map]
  simp only [touches_relabelled hf]

/-- A token with other letters. -/
def Token.relabel (f : Char → Char) : Token → Token
  | letter c => letter (f c)
  | t => t

theorem map_relabel_consNumeric (f : Char → Char) (c : Char) (row : List Token) :
    (Token.consNumeric c row).map (Token.relabel f) =
      Token.consNumeric c (row.map (Token.relabel f)) := by
  cases row with
  | nil => rfl
  | cons t rest => cases t <;> rfl

/-- Texts with other letters have the same tokens with other letters. -/
theorem tokenizeFrom_relabelled {f : Char → Char} (hf : Relabels f) (signExpected : Bool)
    (text : List Char) :
    tokenizeFrom signExpected (text.map f) =
        (tokenizeFrom signExpected text).map (Token.relabel f) := by
  induction text generalizing signExpected with
  | nil => rfl
  | cons c rest ih =>
      rw [List.map_cons]
      cases hletter : isLetter c with
      | true =>
          have hletter' : isLetter (f c) = true := by rw [hf.isLetter_apply, hletter]
          rw [tokenizeFrom_letter _ _ hletter, tokenizeFrom_letter _ _ hletter', ih]
          rfl
      | false =>
          rw [hf.eq_self hletter]
          by_cases hc : isNumeric c = true
          · rw [tokenizeFrom_of_isNumeric _ _ hc, tokenizeFrom_of_isNumeric _ _ hc, ih,
              map_relabel_consNumeric]
          · have hc' : isNumeric c = false := Bool.eq_false_iff.2 hc
            have hsame : (Token.ofChar signExpected c).relabel f = Token.ofChar signExpected c := by
              rcases ofChar_cases signExpected c with
                ⟨_, ht⟩ | ⟨_, ht⟩ | ⟨hkind, _⟩ | ⟨o, _, ht⟩ | ht
              · rw [ht]
                rfl
              · rw [ht]
                rfl
              · rw [hletter] at hkind
                cases hkind
              · rw [ht]
                rfl
              · rw [ht]
                rfl
            rw [tokenizeFrom_of_not_isNumeric _ _ hc', tokenizeFrom_of_not_isNumeric _ _ hc', ih,
              List.map_cons, hsame]

theorem inOrder_relabelled {f : Char → Char} {expecting : Bool} {row : List Token} :
    InOrder expecting (row.map (Token.relabel f)) ↔ InOrder expecting row := by
  induction row generalizing expecting with
  | nil => rfl
  | cons t rest ih =>
      cases t with
      | unknown c => rfl
      | number text | letter c | op o | opening c | closing c => exact and_congr_right fun _ => ih

theorem closes_relabelled {f : Char → Char} {brackets : List Char} {row : List Token} :
    closes brackets (row.map (Token.relabel f)) = closes brackets row := by
  induction row generalizing brackets with
  | nil => rfl
  | cons t rest ih =>
      cases t <;> cases brackets <;> simp only [List.map_cons, Token.relabel, closes, ih]

/-! ## §4  Accepted texts -/

/-- Where operands are apart, what is parsed and leaves one value is in order, and its brackets
fit. -/
theorem inOrder_of_run {ε β : Type} {m : Meaning ε β} {text : List Char} {post : List Token}
    {v : β} (hparse : infixToPostfix text = .ok post) (hrun : m.run post = .ok v)
    (happart : OperandsApart text) :
    InOrder true (tokenize text) ∧ closes [] (tokenize text) = true := by
  obtain ⟨hperm, hcloses, hunknown⟩ := toPostfixFrom_keeps hparse
  have hplaced : ∀ t ∈ post, t.isPlaced = true :=
    fun t ht => (List.mem_filter.1 (hperm.subset ht)).2
  have hexcess : excess post = excess (tokenize text) :=
    (hperm.map Token.weight).sum_eq.trans (excess_filter_isPlaced _)
  have hone : ready true + excess (tokenize text) = 1 := by
    have hcount := m.length_add_excess hplaced hrun
    rw [hexcess] at hcount
    simpa [ready] using hcount
  exact ⟨(spaced_tokenizeFrom hunknown happart (absurd · Bool.false_ne_true.symm)).inOrder.2 hone,
    hcloses⟩

theorem exists_writes_of_inOrder {text : List Char} (horder : InOrder true (tokenize text))
    (hcloses : closes [] (tokenize text) = true) : ∃ e, Writes text e := by
  have hread : HasRead true [] := awaits_nil
  have hproper : ∀ t ∈ tokenize text, t.IsProper := fun _ => isProper_of_mem_tokenizeFrom
  obtain ⟨e, he⟩ := exists_derives_within (List.forall_mem_nil _) hread hproper horder hcloses
  exact ⟨e, tokenize text, he, flatMap_source_tokenizeFrom true text⟩

/-- **The grammar is what is accepted.** A text that is parsed and leaves one value, be it with
other letters, is an expression of the grammar exactly if no two operands in it touch. -/
theorem exists_writes_iff_of_relabelled {f : Char → Char} (hf : Relabels f) {ε β : Type}
    {m : Meaning ε β} {text : List Char} {post : List Token} {v : β}
    (hparse : infixToPostfix (text.map f) = .ok post) (hrun : m.run post = .ok v) :
    (∃ e, Writes text e) ↔ OperandsApart text := by
  constructor
  · rintro ⟨e, row, hrow, rfl⟩
    exact hrow.operandsApart
  · intro happart
    obtain ⟨horder, hcloses⟩ := inOrder_of_run hparse hrun ((operandsApart_relabelled hf).2 happart)
    unfold tokenize at horder hcloses
    rw [tokenizeFrom_relabelled hf] at horder hcloses
    exact exists_writes_of_inOrder (inOrder_relabelled.1 horder)
      (closes_relabelled.symm.trans hcloses)

/-! ## §5  Canonical forms -/

/-- Marks of handwriting are of the class of what they become. -/
theorem classes_canonicalMark (c : Char) : (canonicalMark c).isDigit = c.isDigit ∧
    isLetter (canonicalMark c) = isLetter c ∧ isOpeningChar (canonicalMark c) = isOpeningChar c ∧
      isClosingChar (canonicalMark c) = isClosingChar c := by
  unfold canonicalMark
  split
  case h_8 => exact ⟨rfl, rfl, rfl, rfl⟩
  all_goals decide

/-- No mark changes what a character is for products. -/
theorem needsProduct_canonicalMark (a b : Char) :
    needsProduct (canonicalMark a) (canonicalMark b) = needsProduct a b := by
  obtain ⟨hdigit, hletter, _, hclosing⟩ := classes_canonicalMark a
  obtain ⟨hdigit', hletter', hopening', _⟩ := classes_canonicalMark b
  simp only [needsProduct, isOperandChar, hdigit, hletter, hclosing, hdigit', hletter', hopening']

/-- Whether a product is missing nowhere. -/
def ProductsWritten (text : List Char) : Prop := text.IsChain fun a b => needsProduct a b = false

theorem productsWritten_writeProducts (prev : Char) (text : List Char) :
    ProductsWritten (canonicalMark prev :: writeProducts (some prev) text) := by
  induction text generalizing prev with
  | nil => exact List.isChain_singleton _
  | cons c rest ih =>
      show ProductsWritten (canonicalMark prev ::
        if needsProduct prev c then '*' :: canonicalMark c :: writeProducts (some c) rest
        else canonicalMark c :: writeProducts (some c) rest)
      split
      · -- a `*` needs no product on either side
        refine List.isChain_cons_cons.2 ⟨?_, List.isChain_cons_cons.2 ⟨?_, ih c⟩⟩
        · exact needsProduct_eq_false_right (by decide) (by decide) _
        · exact needsProduct_eq_false_left (by decide) (by decide) _
      · rename_i hneeds
        refine List.isChain_cons_cons.2 ⟨?_, ih c⟩
        rw [needsProduct_canonicalMark]
        exact Bool.eq_false_iff.2 hneeds

/-- All digits need the same products in front of them. -/
theorem needsProduct_of_isDigit {c d : Char} (hc : c.isDigit = true) (hd : d.isDigit = true)
    (prev : Char) :
    needsProduct prev c = needsProduct prev d := by
  obtain ⟨hletter, hopening, _⟩ := classes_of_isNumeric (isNumeric_of_isDigit hc)
  obtain ⟨hletter', hopening', _⟩ := classes_of_isNumeric (isNumeric_of_isDigit hd)
  simp only [needsProduct, isOperandChar, hc, hd, hletter, hletter', hopening, hopening']

/-- The zero that is not written yet where zeros are being dropped. -/
def ZeroState.held : ZeroState → List Char
  | .leading => ['0']
  | _ => []

theorem ZeroState.held_after (c : Char) : (ZeroState.after c).held = [] := by
  unfold ZeroState.after
  split_ifs <;> rfl

/-- Dropping zeros puts nothing side by side that was not. -/
theorem ProductsWritten.stripZerosFrom {s : ZeroState} {prev : Char} {text : List Char}
    (h : ProductsWritten (prev :: (s.held ++ text))) :
    ProductsWritten (prev :: InkAlgebra.stripZerosFrom s text) := by
  induction text generalizing s prev with
  | nil =>
      cases s with
      | leading => exact h
      | outside | kept | behindPoint => exact List.isChain_singleton _
  | cons c rest ih =>
      -- a character that is written keeps its neighbour in front
      have hwritten : ∀ {t : ZeroState}, t.held = [] → needsProduct prev c = false →
          ProductsWritten (c :: rest) →
              ProductsWritten (prev :: c :: InkAlgebra.stripZerosFrom t rest) := by
        intro t ht hprev hrest
        have hheld : ProductsWritten (c :: (t.held ++ rest)) := by rwa [ht]
        exact List.isChain_cons_cons.2 ⟨hprev, ih hheld⟩
      cases s with
      | outside =>
          obtain ⟨hprev, hrest⟩ := List.isChain_cons_cons.1 h
          rw [InkAlgebra.stripZerosFrom]
          split
          · rename_i hc
            subst hc
            exact ih h
          · exact hwritten (ZeroState.held_after c) hprev hrest
      | kept =>
          obtain ⟨hprev, hrest⟩ := List.isChain_cons_cons.1 h
          rw [InkAlgebra.stripZerosFrom]
          exact hwritten (ZeroState.held_after c) hprev hrest
      | behindPoint =>
          obtain ⟨hprev, hrest⟩ := List.isChain_cons_cons.1 h
          rw [InkAlgebra.stripZerosFrom]
          refine hwritten ?_ hprev hrest
          split <;> rfl
      | leading =>
          obtain ⟨hzero, htext⟩ := List.isChain_cons_cons.1 h
          obtain ⟨hnext, hrest⟩ := List.isChain_cons_cons.1 htext
          rw [InkAlgebra.stripZerosFrom]
          split
          · rename_i hc
            subst hc
            exact ih (List.isChain_cons_cons.2 ⟨hzero, hrest⟩)
          · split
            · rename_i hdigit
              have hprev : needsProduct prev c = false := by
                rw [needsProduct_of_isDigit hdigit (by decide : ('0' : Char).isDigit = true) prev]
                exact hzero
              exact hwritten rfl hprev hrest
            · have hheld : ProductsWritten (c :: ((ZeroState.after c).held ++ rest)) := by
                rwa [ZeroState.held_after]
              exact List.isChain_cons_cons.2 ⟨hzero, List.isChain_cons_cons.2 ⟨hnext, ih hheld⟩⟩

/-- **Products are written out.** -/
theorem productsWritten_canonicalForm (text : List Char) :
    ProductsWritten (canonicalForm text) := by
  have hmarks : ProductsWritten ('*' :: (ZeroState.outside.held ++ writeProducts none text)) := by
    have hnone : writeProducts none text = writeProducts (some '*') text :=
      (writeProducts_some (by decide) (by decide) text).symm
    rw [hnone]
    exact productsWritten_writeProducts '*' text
  exact (List.isChain_cons.1 hmarks.stripZerosFrom).2

/-- Whether one of two neighbours is a decimal point that cannot belong to a number there: beside a
letter, or on the outside of a bracket. -/
def strayPoint (a b : Char) : Bool :=
  a = '.' && (isLetter b || isOpeningChar b) || (isLetter a || isClosingChar a) && b = '.'

/-- Whether no decimal point stands beside a letter or on the outside of a bracket. -/
def PointsInNumbers (text : List Char) : Prop := text.IsChain fun a b => strayPoint a b = false

instance (text : List Char) : Decidable (PointsInNumbers text) :=
  inferInstanceAs (Decidable (text.IsChain _))

/-- Operands touch where a product is missing and where a point goes astray. -/
theorem touches_eq (a b : Char) : touches a b = (needsProduct a b || strayPoint a b) := by
  cases ha : isNumeric a with
  | true =>
      obtain ⟨hletter, _, hclosing⟩ := classes_of_isNumeric ha
      have hleft : touches a b = (isLetter b || isOpeningChar b) := by
        cases hb : isNumeric b with
        | true =>
            obtain ⟨hletter', hopening', _⟩ := classes_of_isNumeric hb
            simp [touches, ha, hb, hletter', hopening']
        | false => simp [touches, endsOperand, startsOperand, ha, hb]
      have hdigit : a.isDigit = true ∨ a = '.' := by simpa [isNumeric] using ha
      rw [hleft]
      rcases hdigit with hdigit | rfl
      · have hpoint : a ≠ '.' := by
          rintro rfl
          exact absurd hdigit (by decide)
        simp [needsProduct, strayPoint, isOperandChar, hdigit, hletter, hclosing, hpoint]
      · simp [needsProduct, strayPoint, isOperandChar, hletter, hclosing,
          (by decide : ('.' : Char).isDigit = false)]
  | false =>
      have hdigit : a.isDigit = false := (Bool.or_eq_false_iff.1 ha).1
      have hpoint : a ≠ '.' := by
        rintro rfl
        exact absurd ha (by decide)
      have hleft : touches a b = ((isLetter a || isClosingChar a) && startsOperand b) := by
        simp [touches, endsOperand, ha]
      rw [hleft]
      simp only [needsProduct, strayPoint, startsOperand, isNumeric, isOperandChar, hdigit, hpoint,
        decide_false, Bool.false_and, Bool.false_or]
      generalize decide (b = '.') = point
      cases isLetter a <;> cases isClosingChar a <;> cases b.isDigit <;> cases isLetter b <;>
        cases isOpeningChar b <;> cases point <;> rfl

/-- In a canonical form operands are apart up to points. -/
theorem operandsApart_iff_pointsInNumbers {text : List Char} (h : ProductsWritten text) :
    OperandsApart text ↔ PointsInNumbers text := by
  constructor
  · intro happart
    refine happart.imp fun a b hab => ?_
    rw [touches_eq] at hab
    exact (Bool.or_eq_false_iff.1 hab).2
  · intro hpoints
    refine List.isChain_iff_getElem.2 fun i hi => ?_
    have hproduct := h.getElem i hi
    have hpoint := hpoints.getElem i hi
    rw [touches_eq, hproduct, hpoint]
    rfl

end InkAlgebra

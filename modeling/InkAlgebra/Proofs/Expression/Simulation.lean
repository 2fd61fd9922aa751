import Mathlib
import InkAlgebra.Proofs.Expression.Adjacency

/-!
# Meanings that follow one another

A postfix can be run for several meanings, and for some it succeeds more often than for others. One
meaning follows another if it gets through wherever the other does, which is a matter of single
steps: it has an operand where the other has one, and a result of an operation where the other has
one (`Meaning.Simulates`). The values on the two stacks may have any relation that the steps keep.

The two meanings need not read the same letters. Parsing does not look at which letter it is given,
so the postfix of a text with other letters is the postfix of the text with other letters.

§1 is other letters, §2 the two machines.
-/

namespace InkAlgebra

/-! ## §1  Other letters -/

variable {f : Char → Char}

/-- What is released is operators, and these stay. -/
theorem map_relabel_of_waiting_append {stack below : List Pending} {out : List Token}
    (h : Pending.waiting stack = out ++ Pending.waiting below) :
    out.map (Token.relabel f) = out := by
  have hsame : ∀ t ∈ out, t.relabel f = t := by
    intro t ht
    obtain ⟨o, rfl⟩ := Pending.exists_op_of_mem_waiting (h ▸ List.mem_append_left _ ht)
    rfl
  rw [List.map_congr_left hsame, List.map_id']

theorem map_map_append {ε : Type} {x : Except ε (List Token)} {g : Token → Token} {out : List Token}
    (h : out.map g = out) :
    (x.map (List.map g)).map (out ++ ·) = (x.map (out ++ ·)).map (List.map g) := by
  cases x with
  | error e => rfl
  | ok row => exact congrArg Except.ok (by rw [List.map_append, h])

theorem finish_relabelled (stack : List Pending) :
    (Pending.finish stack).map (List.map (Token.relabel f)) = Pending.finish stack := by
  cases hout : Pending.finish stack with
  | error e => rfl
  | ok out =>
      have hwaiting : Pending.waiting stack = out ++ Pending.waiting [] :=
        (Pending.finish_split hout).1.trans (List.append_nil out).symm
      exact congrArg Except.ok (map_relabel_of_waiting_append hwaiting)

/-- **Parsing does not look at letters.** -/
theorem toPostfixFrom_relabelled (stack : List Pending) (row : List Token) :
    toPostfixFrom stack (row.map (Token.relabel f)) =
        (toPostfixFrom stack row).map (List.map (Token.relabel f)) := by
  induction row generalizing stack with
  | nil => exact (finish_relabelled stack).symm
  | cons t rest ih =>
      cases t with
      | number text | letter c =>
          show (toPostfixFrom stack (rest.map (Token.relabel f))).map _ =
              ((toPostfixFrom stack rest).map _).map _
          rw [ih]
          cases toPostfixFrom stack rest with
          | error e => rfl
          | ok out => rfl
      | opening c => exact ih _
      | closing c =>
          show toPostfixFrom stack (.closing c :: rest.map (Token.relabel f)) = _
          rw [toPostfixFrom, toPostfixFrom]
          split
          · rename_i released below hclose
            rw [ih, map_map_append (map_relabel_of_waiting_append (Pending.close?_split hclose).1)]
          · rfl
      | op o =>
          show toPostfixFrom stack (.op o :: rest.map (Token.relabel f)) = _
          rw [toPostfixFrom, toPostfixFrom]
          dsimp only
          rw [ih, map_map_append (map_relabel_of_waiting_append (Pending.release_split o stack).1)]
      | unknown c => rfl

theorem infixToPostfix_relabelled (hf : Relabels f) (text : List Char) :
    infixToPostfix (text.map f) = (infixToPostfix text).map (List.map (Token.relabel f)) := by
  unfold infixToPostfix tokenize
  rw [tokenizeFrom_relabelled hf]
  exact toPostfixFrom_relabelled [] _

/-! ## §2  Two machines -/

theorem isProper_of_parsed {text : List Char} {post : List Token}
    (h : infixToPostfix text = .ok post) :
    ∀ t ∈ post, t.IsProper := by
  intro t ht
  have hrow : t ∈ (tokenize text).filter Token.isPlaced := (toPostfixFrom_keeps h).1.subset ht
  exact isProper_of_mem_tokenizeFrom (List.mem_of_mem_filter hrow)

variable {ε ε' β β' : Type} {m : Meaning ε β} {m' : Meaning ε' β'} {R : β → β' → Prop}

/-- Whether a meaning can make each step that another makes with other letters, and values stay
related. -/
structure Meaning.Simulates (m' : Meaning ε' β') (m : Meaning ε β) (f : Char → Char)
    (R : β → β' → Prop) : Prop where
  operand : ∀ t v, t.IsProper → m.operand (t.relabel f) = .ok v →
    ∃ v', m'.operand t = .ok v' ∧ R v v'
  unary : ∀ o v v', R v v' → R (m.unary o v) (m'.unary o v')
  binary : ∀ o a a' b b' v, R a a' → R b b' → m.binary o a b = .ok v →
    ∃ v', m'.binary o a' b' = .ok v' ∧ R v v'

/-- A run of the one is a run of the other. -/
theorem Meaning.Simulates.exists_runFrom (hsim : m'.Simulates m f R) {stack : List β}
    {stack' : List β'} {row : List Token} {v : β} (hproper : ∀ t ∈ row, t.IsProper)
    (hstack : List.Forall₂ R stack stack')
    (h : m.runFrom stack (row.map (Token.relabel f)) = .ok v) :
    ∃ v', m'.runFrom stack' row = .ok v' ∧ R v v' := by
  induction row generalizing stack stack' with
  | nil =>
      obtain rfl := eq_of_runFrom_nil h
      cases hstack with
      | @cons _ v' _ _ hv hbelow =>
          cases hbelow
          exact ⟨v', rfl, hv⟩
  | cons t rest ih =>
      obtain ⟨ht, hrest⟩ := List.forall_mem_cons.1 hproper
      cases t with
      | op o =>
          cases hunary : o.isUnary with
          | true =>
              obtain ⟨a, below, rfl, hrun⟩ := exists_of_runFrom_unary hunary h
              cases hstack with
              | @cons _ a' _ below' ha hbelow =>
                  have hrun' := ih hrest (.cons (hsim.unary o a a' ha) hbelow) hrun
                  simpa [runFrom, hunary] using hrun'
          | false =>
              obtain ⟨a, b, below, w, rfl, hw, hrun⟩ := exists_of_runFrom_binary hunary h
              cases hstack with
              | @cons _ b' _ _ hb hmore =>
                  cases hmore with
                  | @cons _ a' _ below' ha hbelow =>
                      obtain ⟨w', hw', hR⟩ := hsim.binary o a a' b b' w ha hb hw
                      obtain ⟨v', hv', hv⟩ := ih hrest (.cons hR hbelow) hrun
                      refine ⟨v', ?_, hv⟩
                      simp only [runFrom, hunary, hw']
                      exact hv'
      | number _ | letter _ | opening _ | closing _ | unknown _ =>
          rw [List.map_cons, runFrom_operand (by simp [Token.relabel])] at h
          obtain ⟨w, hw, hrun⟩ := exists_of_bind_eq_ok h
          obtain ⟨w', hw', hR⟩ := hsim.operand _ w ht hw
          obtain ⟨v', hv', hv⟩ := ih hrest (.cons hR hstack) hrun
          refine ⟨v', ?_, hv⟩
          rw [runFrom_operand (by simp), hw']
          exact hv'

/-- **Followed.** What the one meaning gets through with other letters, the other gets through with
as it stands. -/
theorem Meaning.Simulates.exists_value (hsim : m'.Simulates m f R) (hf : Relabels f)
    {text : List Char} {post : List Token} {v : β}
    (hparse : infixToPostfix (text.map f) = .ok post) (hrun : m.run post = .ok v) :
    ∃ post' v', infixToPostfix text = .ok post' ∧ m'.run post' = .ok v' ∧ R v v' := by
  rw [infixToPostfix_relabelled hf] at hparse
  obtain ⟨post', hparse', rfl⟩ := exists_of_map_eq_ok hparse
  obtain ⟨v', hrun', hv⟩ := hsim.exists_runFrom (isProper_of_parsed hparse') .nil hrun
  exact ⟨post', v', hparse', hrun', hv⟩

theorem relabel_id (t : Token) : t.relabel id = t := by
  cases t <;> rfl

theorem map_relabel_id (row : List Token) : row.map (Token.relabel id) = row :=
  (List.map_congr_left fun t _ => relabel_id t).trans (List.map_id' row)

/-- With the same letters the two meanings run the same postfix. -/
theorem Meaning.Simulates.exists_run (hsim : m'.Simulates m id R) {text : List Char}
    {post : List Token} {v : β} (hparse : infixToPostfix text = .ok post)
    (hrun : m.run post = .ok v) : ∃ v', m'.run post = .ok v' ∧ R v v' := by
  rw [← map_relabel_id post] at hrun
  exact hsim.exists_runFrom (isProper_of_parsed hparse) .nil hrun

end InkAlgebra

import Mathlib
import InkAlgebra.Proofs.Json.Compact
import InkAlgebra.Proofs.Number.Shortest

/-!
# Numbers as the grammar has them

Data notation is number notation of JSON: digits without a leading zero, a point with digits on both
sides, an exponent with digits. A leading zero could come only from digits that are all zero, and
shortest digits are not.

§1 is the parts of a number text, §2 decimals, §3 binary64.
-/

namespace InkAlgebra.Json

/-! ## §1  Parts of a number text -/

def IsDigits (digits : List Char) : Prop := digits ≠ [] ∧ ∀ c ∈ digits, c.isDigit = true

def IsWhole (whole : List Char) : Prop := whole = ['0'] ∨ IsDigits whole ∧ whole.head? ≠ some '0'

def IsFraction (fraction : List Char) : Prop :=
  fraction = [] ∨ ∃ digits, fraction = '.' :: digits ∧ IsDigits digits

def IsExponent (exponent : List Char) : Prop :=
  exponent = [] ∨ ∃ sign digits, sign ∈ [[], ['+'], ['-']] ∧ IsDigits digits ∧
    exponent = 'e' :: (sign ++ digits)

theorem readDigits?_append {digits rest : List Char} (h : IsDigits digits)
    (hrest : ∀ c ∈ rest.head?, c.isDigit = false) :
    readDigits? (digits ++ rest) = some (digits, rest) := by
  have hstop : rest.takeWhile Char.isDigit = [] ∧ rest.dropWhile Char.isDigit = rest := by
    cases rest with
    | nil => exact ⟨rfl, rfl⟩
    | cons c rest =>
        have hc : ¬ c.isDigit = true := by
          rw [hrest c rfl]
          decide
        exact ⟨List.takeWhile_cons_of_neg hc, List.dropWhile_cons_of_neg hc⟩
  unfold readDigits?
  rw [List.takeWhile_append_of_pos h.2, List.dropWhile_append_of_pos h.2, hstop.1,
    hstop.2, List.append_nil]
  dsimp only
  rw [if_neg (by rw [List.isEmpty_iff]; exact h.1)]

theorem readWhole?_append {whole rest : List Char} (h : IsWhole whole)
    (hrest : ∀ c ∈ rest.head?, c.isDigit = false) :
    readWhole? (whole ++ rest) = some (whole, rest) := by
  rcases h with rfl | ⟨hdigits, hhead⟩
  · rfl
  · unfold readWhole?
    split
    · rename_i heq
      refine absurd ?_ hhead
      rw [← List.head?_append_of_ne_nil whole hdigits.1, heq]
      rfl
    · exact readDigits?_append hdigits hrest

theorem readFraction?_append {fraction rest : List Char} (h : IsFraction fraction)
    (hrest : ∀ c ∈ rest.head?, c.isDigit = false ∧ c ≠ '.') :
    readFraction? (fraction ++ rest) = some (fraction, rest) := by
  rcases h with rfl | ⟨digits, rfl, hdigits⟩
  · cases rest with
    | nil => rfl
    | cons c rest =>
        rw [List.nil_append, readFraction?]
        intro tail heq
        exact (hrest c rfl).2 (List.cons.inj heq).1
  · rw [List.cons_append, readFraction?, readDigits?_append hdigits fun c hc => (hrest c hc).1]
    rfl

theorem EndsNumber.head?_ne {rest : List Char} (h : EndsNumber rest) :
    ∀ c ∈ rest.head?, c.isDigit = false ∧ c ≠ '.' ∧ c ≠ 'e' ∧ c ≠ 'E' := by
  intro c hc
  rcases h c hc with rfl | rfl | rfl <;> decide

theorem IsDigits.exists_cons {digits : List Char} (h : IsDigits digits) :
    ∃ c tail, digits = c :: tail ∧ c.isDigit = true := by
  obtain ⟨hne, hall⟩ := h
  cases digits with
  | nil => exact absurd rfl hne
  | cons c tail => exact ⟨c, tail, rfl, hall c List.mem_cons_self⟩

theorem readExponent?_append {exponent rest : List Char} (h : IsExponent exponent)
    (hrest : EndsNumber rest) :
    readExponent? (exponent ++ rest) = some (exponent, rest) := by
  unfold readExponent?
  rcases h with rfl | ⟨sign, digits, hsign, hdigits, rfl⟩
  · cases rest with
    | nil => rfl
    | cons c rest =>
        have hc := hrest.head?_ne c rfl
        dsimp only [List.nil_append]
        rw [if_neg (by simp [hc])]
  · have hread := readDigits?_append hdigits fun c hc => (hrest.head?_ne c hc).1
    obtain ⟨c, tail, rfl, hc⟩ := hdigits.exists_cons
    dsimp only [List.cons_append, List.append_assoc]
    rw [if_pos (by decide)]
    simp only [List.mem_cons, List.not_mem_nil, or_false] at hsign
    rcases hsign with rfl | rfl | rfl
    · dsimp only [List.nil_append, List.cons_append] at hread ⊢
      split
      · rename_i heq
        obtain ⟨rfl, -⟩ := List.cons.inj heq
        cases hc
      · rename_i heq
        obtain ⟨rfl, -⟩ := List.cons.inj heq
        cases hc
      · rw [hread]
        rfl
    · simp only [List.nil_append, List.cons_append] at hread ⊢
      rw [hread]
      rfl
    · simp only [List.nil_append, List.cons_append] at hread ⊢
      rw [hread]
      rfl

theorem IsWhole.exists_cons {whole : List Char} (h : IsWhole whole) :
    ∃ c tail, whole = c :: tail ∧ c.isDigit = true := by
  rcases h with rfl | ⟨hdigits, _⟩
  · exact ⟨'0', [], rfl, rfl⟩
  · exact hdigits.exists_cons

/-- A number is its sign, its whole part, its fraction and its exponent. -/
theorem isNumberText_withSign (x : Float) {whole fraction exponent : List Char}
    (hwhole : IsWhole whole) (hfraction : IsFraction fraction) (hexponent : IsExponent exponent) :
    IsNumberText (withSign x (whole ++ fraction ++ exponent)) := by
  intro rest hrest
  have hbehind : ∀ c ∈ (exponent ++ rest).head?, c.isDigit = false ∧ c ≠ '.' := by
    rcases hexponent with rfl | ⟨sign, digits, _, _, rfl⟩
    · intro c hc
      exact ⟨(hrest.head?_ne c hc).1, (hrest.head?_ne c hc).2.1⟩
    · rintro _ ⟨⟩
      exact ⟨by decide, by decide⟩
  have hbehindWhole : ∀ c ∈ (fraction ++ (exponent ++ rest)).head?, c.isDigit = false := by
    rcases hfraction with rfl | ⟨digits, rfl, _⟩
    · exact fun c hc => (hbehind c hc).1
    · rintro _ ⟨⟩
      decide
  have hnoDigit : (fraction ++ (exponent ++ rest)).head?.any Char.isDigit = false := by
    cases hhead : (fraction ++ (exponent ++ rest)).head? with
    | none => rfl
    | some c => exact hbehindWhole c hhead
  have hread := readWhole?_append hwhole hbehindWhole
  obtain ⟨c, tail, hfirst, hc⟩ := hwhole.exists_cons
  have hfractionRead := readFraction?_append hfraction hbehind
  have hexponentRead := readExponent?_append hexponent hrest
  unfold readNumberText? withSign
  cases Binary64.signBit x with
  | true =>
      simp only [if_true, List.cons_append, List.append_assoc, hread, Option.bind_eq_bind,
        Option.bind_some, hnoDigit, hfractionRead, hexponentRead]
      rfl
  | false =>
      have hunsigned : whole ++ fraction ++ exponent ++ rest =
          whole ++ (fraction ++ (exponent ++ rest)) := by
        rw [List.append_assoc, List.append_assoc]
      rw [if_neg (by decide), hunsigned]
      dsimp only
      split
      · rename_i heq
        rw [hfirst, List.cons_append] at heq
        obtain ⟨rfl, -⟩ := List.cons.inj heq
        cases hc
      · simp only [hread, Option.bind_eq_bind, Option.bind_some, hnoDigit,
          hfractionRead, hexponentRead]
        rfl

/-! ## §2  Decimals -/

theorem isDigits_natText (n : ℕ) : IsDigits (natText n) :=
  ⟨Nat.toDigits_ne_nil, fun _ hc => Nat.isDigit_of_mem_toDigits (by decide) (by decide) hc⟩

theorem head?_natText {n : ℕ} (hn : 0 < n) : (natText n).head? ≠ some '0' := by
  induction n using Nat.strong_induction_on with
  | _ n ih =>
      unfold natText
      by_cases hsmall : n < 10
      · rw [Nat.toDigits_of_lt_base hsmall]
        interval_cases n <;> decide
      · rw [Nat.toDigits_of_base_le (by decide) (by omega),
          List.head?_append_of_ne_nil _ Nat.toDigits_ne_nil]
        exact ih (n / 10) (by omega) (by omega)

theorem isFraction_point {digits : List Char} (h : ∀ c ∈ digits, c.isDigit = true) :
    IsFraction (if digits.isEmpty then [] else '.' :: digits) := by
  split
  · exact .inl rfl
  · rename_i hne
    rw [List.isEmpty_iff] at hne
    exact .inr ⟨digits, rfl, hne, h⟩

theorem isDigit_of_mem_zeros {n : ℕ} {c : Char} (h : c ∈ Decimal.zeros n) : c.isDigit = true := by
  obtain rfl := List.eq_of_mem_replicate h
  rfl

theorem exists_positional_eq (places : ℕ) {d : Decimal} (hd : 0 < d.digits) :
    ∃ whole fraction, d.positional places = whole ++ fraction ++ [] ∧ IsWhole whole ∧
        IsFraction fraction := by
  unfold Decimal.positional
  dsimp only
  generalize hdigits : natText d.digits ++ Decimal.zeros d.exponent.toNat = digits
  generalize (-d.exponent).toNat = fractional
  generalize hpadded : Decimal.zeros (fractional + 1 - digits.length) ++ digits = padded
  have hall : ∀ c ∈ padded, c.isDigit = true := by
    subst hpadded hdigits
    intro c hc
    simp only [List.mem_append] at hc
    rcases hc with hc | hc | hc
    · exact isDigit_of_mem_zeros hc
    · exact (isDigits_natText _).2 c hc
    · exact isDigit_of_mem_zeros hc
  have hlength : fractional < padded.length := by
    rw [← hpadded, List.length_append, Decimal.zeros, List.length_replicate]
    omega
  have hwhole : IsWhole (padded.take (padded.length - fractional)) := by
    by_cases hlong : fractional < digits.length
    · have hsame : padded = digits := by
        rw [← hpadded, show fractional + 1 - digits.length = 0 by omega]
        rfl
      refine .inr ⟨⟨?_, fun c hc => hall c (List.mem_of_mem_take hc)⟩, ?_⟩
      · rw [Ne, List.take_eq_nil_iff, not_or]
        exact ⟨by omega, List.ne_nil_of_length_pos (by omega)⟩
      · rw [List.head?_take, if_neg (by omega), hsame, ← hdigits,
          List.head?_append_of_ne_nil _ (isDigits_natText _).1]
        exact head?_natText hd
    · have hone : padded.length - fractional = 1 := by
        rw [← hpadded, List.length_append, Decimal.zeros, List.length_replicate]
        omega
      obtain ⟨k, hk⟩ : ∃ k, fractional + 1 - digits.length = k + 1 :=
        ⟨fractional - digits.length, by omega⟩
      rw [hone, ← hpadded, hk]
      exact .inl rfl
  have hfraction : ∀ c ∈ padded.drop (padded.length - fractional) ++
      Decimal.zeros (places - fractional), c.isDigit = true := by
    intro c hc
    rcases List.mem_append.1 hc with hc | hc
    · exact hall c (List.mem_of_mem_drop hc)
    · exact isDigit_of_mem_zeros hc
  refine ⟨_, _, ?_, hwhole, isFraction_point hfraction⟩
  rw [List.splitAt_eq, List.append_nil]
  dsimp only
  split
  · rw [List.append_nil]
  · rfl

theorem exists_scientific_eq {plus : List Char} (hplus : plus ∈ [[], ['+']]) {d : Decimal}
    (hd : 0 < d.digits) :
    ∃ whole fraction exponent, d.scientific plus = whole ++ fraction ++ exponent ∧ IsWhole whole ∧
      IsFraction fraction ∧ IsExponent exponent := by
  unfold Decimal.scientific
  dsimp only
  generalize d.exponent + ((natText d.digits).length - 1 : ℕ) = exponent
  obtain ⟨hne, hall⟩ := isDigits_natText d.digits
  have hhead := head?_natText hd
  generalize natText d.digits = digits at hne hall hhead
  cases digits with
  | nil => exact absurd rfl hne
  | cons c rest =>
      have hwhole : IsWhole [c] := by
        refine .inr ⟨⟨List.cons_ne_nil _ _, ?_⟩, hhead⟩
        exact List.forall_mem_singleton.2 (hall c List.mem_cons_self)
      have hfraction : IsFraction (if rest.isEmpty then [] else '.' :: rest) :=
        isFraction_point fun e he => hall e (List.mem_cons_of_mem c he)
      have hexponent :
          IsExponent ('e' :: ((if exponent < 0 then [] else plus) ++ intText exponent)) := by
        unfold intText
        split
        · exact .inr ⟨['-'], _, by decide, isDigits_natText _, rfl⟩
        · refine .inr ⟨plus, _, ?_, isDigits_natText _, rfl⟩
          exact List.mem_of_mem_take (i := 2) hplus
      refine ⟨[c], _, _, ?_, hwhole, hfraction, hexponent⟩
      cases rest with
      | nil => simp
      | cons e rest => simp

/-! ## §3  Binary64 -/

theorem isNumberText_fractionalText {plus : List Char} (hplus : plus ∈ [[], ['+']]) (x : Float) :
    IsNumberText (fractionalText plus x) := by
  unfold fractionalText
  split
  · have hzero : "0.0".toList = ['0'] ++ ['.', '0'] ++ [] := rfl
    rw [hzero]
    have hdigits : IsDigits ['0'] := ⟨List.cons_ne_nil _ _, List.forall_mem_singleton.2 rfl⟩
    exact isNumberText_withSign x (.inl rfl) (.inr ⟨['0'], rfl, hdigits⟩) (.inl rfl)
  · rename_i hne
    have hdigits := shortestDecimal_digits_pos .even (Bool.eq_false_iff.2 hne)
    dsimp only
    split
    · obtain ⟨whole, fraction, heq, hwhole, hfraction⟩ := exists_positional_eq 1 hdigits
      rw [heq]
      exact isNumberText_withSign x hwhole hfraction (.inl rfl)
    · obtain ⟨whole, fraction, exponent, heq, hwhole, hfraction, hexponent⟩ :=
        exists_scientific_eq hplus hdigits
      rw [heq]
      exact isNumberText_withSign x hwhole hfraction hexponent

/-- **Numbers are well written.** Numbers that are not finite are none. -/
theorem wellWritten_ofFloat (x : Float) : WellWritten (ofFloat x) := by
  unfold ofFloat dataText?
  cases x.isFinite with
  | true => exact .number (isNumberText_fractionalText (by decide) x)
  | false => exact .null

end InkAlgebra.Json

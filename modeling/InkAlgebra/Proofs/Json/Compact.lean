import Mathlib
import InkAlgebra.Json.Read
import InkAlgebra.Json.Write

/-!
# Compact text reads back

A value whose numbers and strings are written as the grammar has them is read from its compact text,
and nothing of the text is left over. The allowance of the reader is enough: a value of some length
needs at most twice as much.

§1 is what may be written, §2 strings, §3 values.
-/

namespace InkAlgebra.Json

/-! ## §1  What may be written -/

/-- Whether a text behind a number is no part of it. -/
def EndsNumber (rest : List Char) : Prop := ∀ c ∈ rest.head?, c = ',' ∨ c = ']' ∨ c = '\x7d'

theorem EndsNumber.cons {c : Char} (h : c = ',' ∨ c = ']' ∨ c = '\x7d') (rest : List Char) :
    EndsNumber (c :: rest) := by
  rintro _ ⟨⟩
  exact h

def IsNumberText (lexeme : List Char) : Prop :=
  ∀ rest, EndsNumber rest → readNumberText? (lexeme ++ rest) = some (lexeme, rest)

/-- Whether a text between quotes is read up to the second one. -/
def IsStringText (escaped : List Char) : Prop :=
  ∀ rest, readString? (escaped ++ '"' :: rest) = some (escaped, rest)

/-- Values with numbers and strings as the grammar has them. -/
inductive WellWritten : Json → Prop
  | null : WellWritten null
  | bool (b : Bool) : WellWritten (bool b)
  | number {lexeme : List Char} (h : IsNumberText lexeme) : WellWritten (number lexeme)
  | string {escaped : List Char} (h : IsStringText escaped) : WellWritten (string escaped)
  | array {items : List Json} (h : ∀ v ∈ items, WellWritten v) : WellWritten (array items)
  | object {fields : List (List Char × Json)} (hkeys : ∀ field ∈ fields, IsStringText field.1)
      (hvalues : ∀ field ∈ fields, WellWritten field.2) : WellWritten (object fields)

/-! ## §2  Strings -/

theorem readString?_cons {c : Char} (hquote : c ≠ '"') (hslash : c ≠ '\\') (hcontrol : 32 ≤ c.toNat)
    (rest : List Char) :
    readString? (c :: rest) = (readString? rest).map (Prod.map (c :: ·) id) := by
  have hplain : (c = '\\' || decide (c.toNat < 32)) = false := by
    rw [decide_eq_false hslash, decide_eq_false (Nat.not_lt.2 hcontrol)]
    rfl
  rw [readString?, hplain]
  · cases readString? rest <;> rfl
  all_goals simp_all

theorem readString?_letter {e c : Char} (he : escapeLetter? e = some c) (rest : List Char) :
    readString? ('\\' :: e :: rest) = (readString? rest).map (Prod.map (['\\', e] ++ ·) id) := by
  have hu : e ≠ 'u' := by
    rintro rfl
    cases he
  rw [readString?, he]
  · cases readString? rest <;> rfl
  · simp_all

theorem readString?_code {a b c d : Char} {n : ℕ} (h : hexValue4? a b c d = some n)
    (rest : List Char) :
    readString? ('\\' :: 'u' :: a :: b :: c :: d :: rest) =
      (readString? rest).map (Prod.map (['\\', 'u', a, b, c, d] ++ ·) id) := by
  rw [readString?, h]
  cases readString? rest <;> rfl

/-- Of a control character all codes have four digits. -/
theorem hexValue4?_hexDigit {n : ℕ} (h : n < 32) :
    hexValue4? '0' '0' (hexDigit (n / 16)) (hexDigit (n % 16)) = some n := by
  have hzero : hexValue? '0' = some 0 := rfl
  simp only [hexValue4?, hzero, hexValue_hexDigit (n := n / 16) (by omega),
    hexValue_hexDigit (n := n % 16) (by omega), Option.bind_eq_bind, Option.bind_some,
    Option.pure_def]
  congr 1
  omega

theorem readString?_escapeChar (c : Char) (rest : List Char) :
    readString? (escapeChar c ++ rest) =
      (readString? rest).map (Prod.map (escapeChar c ++ ·) id) := by
  unfold escapeChar
  split
  · exact readString?_letter rfl rest
  · exact readString?_letter rfl rest
  · exact readString?_letter rfl rest
  · exact readString?_letter rfl rest
  · exact readString?_letter rfl rest
  · rename_i hquote hslash _ _ _
    by_cases hback : c.toNat = 8
    · rw [if_pos hback]
      exact readString?_letter rfl rest
    · by_cases hfeed : c.toNat = 12
      · rw [if_neg hback, if_pos hfeed]
        exact readString?_letter rfl rest
      · by_cases hcontrol : c.toNat < 32
        · rw [if_neg hback, if_neg hfeed, if_pos hcontrol]
          exact readString?_code (hexValue4?_hexDigit hcontrol) rest
        · rw [if_neg hback, if_neg hfeed, if_neg hcontrol]
          exact readString?_cons hquote hslash (Nat.not_lt.1 hcontrol) rest

theorem isStringText_escape (text : List Char) : IsStringText (escape text) := by
  intro rest
  induction text with
  | nil => rfl
  | cons c text ih =>
      rw [escape, List.flatMap_cons, List.append_assoc, readString?_escapeChar]
      rw [escape] at ih
      rw [ih]
      rfl

/-! ## §3  Values -/

theorem readWhole?_cons {c : Char} (hc : c.isDigit = false) (rest : List Char) :
    readWhole? (c :: rest) = none := by
  unfold readWhole?
  split
  · rename_i heq
    cases heq
    cases hc
  · unfold readDigits?
    rw [List.takeWhile_cons_of_neg (by rw [hc]; decide)]
    rfl

theorem exists_of_readNumberText? {text : List Char} {found : List Char × List Char}
    (h : readNumberText? text = some found) :
    ∃ c rest, text = c :: rest ∧ (c = '-' ∨ c.isDigit = true) := by
  cases text with
  | nil => cases h
  | cons c rest =>
      refine ⟨c, rest, rfl, ?_⟩
      by_contra hc
      rw [not_or, Bool.not_eq_true] at hc
      unfold readNumberText? at h
      dsimp only at h
      split at h
      · rename_i hminus
        exact hc.1 (List.cons.inj hminus).1
      · rw [readWhole?_cons hc.2] at h
        cases h

theorem ne_of_minus_or_digit {c : Char} (hc : c = '-' ∨ c.isDigit = true) {d : Char}
    (hminus : d ≠ '-') (hdigit : d.isDigit = false) : c ≠ d := by
  rintro rfl
  rcases hc with hc | hc
  · exact hminus hc
  · rw [hdigit] at hc
    cases hc

theorem readValue?_number {c : Char} (hc : c = '-' ∨ c.isDigit = true) (n : ℕ) (rest : List Char) :
    readValue? (n + 1) (c :: rest) = (readNumberText? (c :: rest)).map (Prod.map number id) := by
  rw [readValue?]
  · cases readNumberText? (c :: rest) <;> rfl
  all_goals
    intro tail heq
    exact ne_of_minus_or_digit hc (by decide) (by decide) (List.cons.inj heq).1

theorem skipBlanks_cons {c : Char} (hc : isBlank c = false) (rest : List Char) :
    skipBlanks (c :: rest) = c :: rest :=
  List.dropWhile_cons_of_neg (by rw [hc]; decide)

theorem exists_compact_eq_cons {v : Json} (h : WellWritten v) :
    ∃ c rest, v.compact = c :: rest ∧ isBlank c = false ∧ c ≠ ']' := by
  cases h with
  | null => exact ⟨'n', _, rfl, by decide, by decide⟩
  | bool b =>
      cases b with
      | true => exact ⟨'t', _, rfl, by decide, by decide⟩
      | false => exact ⟨'f', _, rfl, by decide, by decide⟩
  | number h =>
      obtain ⟨c, rest, hlexeme, hc⟩ := exists_of_readNumberText? (h [] (by rintro _ ⟨⟩))
      rw [List.append_nil] at hlexeme
      have hne : ∀ d : Char, d ≠ '-' → d.isDigit = false → c ≠ d := fun d => ne_of_minus_or_digit hc
      refine ⟨c, rest, hlexeme, ?_, hne _ (by decide) (by decide)⟩
      simp only [isBlank, Bool.or_eq_false_iff, decide_eq_false_iff_not]
      exact ⟨⟨⟨hne _ (by decide) (by decide), hne _ (by decide) (by decide)⟩,
        hne _ (by decide) (by decide)⟩, hne _ (by decide) (by decide)⟩
  | string h => exact ⟨'"', _, rfl, by decide, by decide⟩
  | array h => exact ⟨'[', _, rfl, by decide, by decide⟩
  | object hkeys hvalues => exact ⟨'\x7b', _, rfl, by decide, by decide⟩

theorem compact_length_pos {v : Json} (h : WellWritten v) : 0 < v.compact.length := by
  obtain ⟨c, rest, hcompact, _⟩ := exists_compact_eq_cons h
  rw [hcompact]
  exact Nat.succ_pos _

/-- Whether a value is read from its compact text, with an allowance of twice its length. -/
def ReadsBack (v : Json) : Prop :=
  ∀ n rest, 2 * v.compact.length ≤ n + 1 → EndsNumber rest →
    readValue? n (v.compact ++ rest) = some (v, rest)

theorem skipBlanks_compact {v : Json} (h : WellWritten v) (rest : List Char) :
    skipBlanks (v.compact ++ rest) = v.compact ++ rest := by
  obtain ⟨c, tail, hcompact, hc, _⟩ := exists_compact_eq_cons h
  rw [hcompact]
  exact skipBlanks_cons hc _

theorem readItems?_compactItems {items : List Json} (hne : items ≠ [])
    (hwritten : ∀ v ∈ items, WellWritten v) (hread : ∀ v ∈ items, ReadsBack v) {n : ℕ}
    (hn : 2 * (compact.compactItems items).length ≤ n) (rest : List Char) :
    readValue?.readItems? n (compact.compactItems items ++ ']' :: rest) = some (items, rest) := by
  induction items generalizing n with
  | nil => exact absurd rfl hne
  | cons v items ih =>
      obtain ⟨hv, hitems⟩ := List.forall_mem_cons.1 hwritten
      obtain ⟨hvread, hitemsread⟩ := List.forall_mem_cons.1 hread
      have hpos := compact_length_pos hv
      cases items with
      | nil =>
          rw [compact.compactItems] at hn ⊢
          obtain ⟨m, rfl⟩ : ∃ m, n = m + 1 := ⟨n - 1, by omega⟩
          rw [readValue?.readItems?, skipBlanks_compact hv,
            hvread m _ (by omega) (.cons (.inr (.inl rfl)) _)]
          rfl
      | cons w items =>
          rw [compact.compactItems] at hn ⊢
          rw [List.length_append, List.length_cons] at hn
          obtain ⟨m, rfl⟩ : ∃ m, n = m + 1 := ⟨n - 1, by omega⟩
          have hrest := ih (List.cons_ne_nil _ _) hitems hitemsread (n := m) (by omega)
          rw [readValue?.readItems?, List.append_assoc, List.cons_append, skipBlanks_compact hv,
            hvread m _ (by omega) (.cons (.inl rfl) _)]
          dsimp only [Option.bind_eq_bind, Option.bind_some]
          rw [skipBlanks_cons (by decide)]
          simp only [hrest]
          rfl

theorem readValue?_array {items : List Json} (hne : items ≠ [])
    (hwritten : ∀ v ∈ items, WellWritten v) (n : ℕ) (rest : List Char) :
    readValue? (n + 1) ('[' :: (compact.compactItems items ++ rest)) =
      (readValue?.readItems? n (compact.compactItems items ++ rest)).map (Prod.map array id) := by
  obtain ⟨c, tail, htext, hblank, hclose⟩ :
      ∃ c tail, compact.compactItems items ++ rest = c :: tail ∧ isBlank c = false ∧ c ≠ ']' := by
    cases items with
    | nil => exact absurd rfl hne
    | cons v items =>
        obtain ⟨c, tail, hcompact, hc⟩ := exists_compact_eq_cons (hwritten v List.mem_cons_self)
        cases items with
        | nil =>
            exact ⟨c, tail ++ rest, by rw [compact.compactItems, hcompact, List.cons_append], hc⟩
        | cons w items =>
            exact ⟨c, _, by rw [compact.compactItems, hcompact, List.cons_append,
              List.cons_append], hc⟩
  rw [htext, readValue?, skipBlanks_cons hblank]
  split
  · rename_i heq
    exact absurd (List.cons.inj heq).1 hclose
  · cases readValue?.readItems? n (c :: tail) <;> rfl

theorem readValue?_object {fields : List (List Char × Json)} (hne : fields ≠ []) (n : ℕ)
    (rest : List Char) :
    readValue? (n + 1) ('\x7b' :: (compact.compactFields fields ++ rest)) =
      (readValue?.readFields? n (compact.compactFields fields ++ rest)).map
        (Prod.map object id) := by
  obtain ⟨tail, htext⟩ : ∃ tail, compact.compactFields fields ++ rest = '"' :: tail := by
    cases fields with
    | nil => exact absurd rfl hne
    | cons field fields => cases fields <;> exact ⟨_, rfl⟩
  rw [htext, readValue?, skipBlanks_cons (by decide)]
  split
  · rename_i heq
    exact absurd (List.cons.inj heq).1 (by decide)
  · cases readValue?.readFields? n ('"' :: tail) <;> rfl

/-- A field up to what follows its value. -/
theorem readFields?_field {key : List Char} {v : Json} (hkey : IsStringText key)
    (hv : WellWritten v) (hread : ReadsBack v) {n : ℕ} (hn : 2 * v.compact.length ≤ n + 1)
    {c : Char} (hc : c = ',' ∨ c = '\x7d') (rest : List Char) :
    readValue?.readFields? (n + 1) (quoted key ++ ':' :: v.compact ++ c :: rest) =
      if c = ',' then (readValue?.readFields? n rest).map (Prod.map ((key, v) :: ·) id)
      else some ([(key, v)], rest) := by
  have hopen : quoted key ++ ':' :: v.compact ++ c :: rest =
      '"' :: (key ++ '"' :: (':' :: (v.compact ++ c :: rest))) := by
    simp [quoted]
  have hblank : isBlank c = false ∧ EndsNumber (c :: rest) := by
    rcases hc with rfl | rfl
    · exact ⟨by decide, .cons (.inl rfl) _⟩
    · exact ⟨by decide, .cons (.inr (.inr rfl)) _⟩
  rw [hopen, readValue?.readFields?, skipBlanks_cons (by decide)]
  simp only [hkey _, Option.bind_eq_bind, Option.bind_some,
    skipBlanks_cons (show isBlank ':' = false by decide), skipBlanks_compact hv,
    hread n _ hn hblank.2, skipBlanks_cons hblank.1]
  rcases hc with rfl | rfl
  · rw [if_pos rfl]
    show ((readValue?.readFields? n rest).bind fun found => some ((key, v) :: found.1, found.2)) = _
    cases readValue?.readFields? n rest <;> rfl
  · rfl

theorem readFields?_compactFields {fields : List (List Char × Json)} (hne : fields ≠ [])
    (hkeys : ∀ field ∈ fields, IsStringText field.1)
    (hwritten : ∀ field ∈ fields, WellWritten field.2)
    (hread : ∀ field ∈ fields, ReadsBack field.2) {n : ℕ}
    (hn : 2 * (compact.compactFields fields).length ≤ n) (rest : List Char) :
    readValue?.readFields? n (compact.compactFields fields ++ '\x7d' :: rest) =
        some (fields, rest) := by
  induction fields generalizing n with
  | nil => exact absurd rfl hne
  | cons field fields ih =>
      obtain ⟨key, v⟩ := field
      obtain ⟨hkey, hkeys⟩ := List.forall_mem_cons.1 hkeys
      obtain ⟨hv, hfields⟩ := List.forall_mem_cons.1 hwritten
      obtain ⟨hvread, hfieldsread⟩ := List.forall_mem_cons.1 hread
      dsimp only at hkey hv hvread
      cases fields with
      | nil =>
          rw [compact.compactFields] at hn ⊢
          rw [List.length_append, List.length_cons] at hn
          obtain ⟨m, rfl⟩ : ∃ m, n = m + 1 := ⟨n - 1, by omega⟩
          rw [readFields?_field hkey hv hvread (by omega) (.inr rfl), if_neg (by decide)]
      | cons next fields =>
          rw [compact.compactFields] at hn ⊢
          rw [List.length_append, List.length_append, List.length_cons, List.length_cons] at hn
          obtain ⟨m, rfl⟩ : ∃ m, n = m + 1 := ⟨n - 1, by omega⟩
          have hrest := ih (List.cons_ne_nil _ _) hkeys hfields hfieldsread (n := m) (by omega)
          rw [List.append_assoc, List.cons_append,
            readFields?_field hkey hv hvread (by omega) (.inl rfl), if_pos rfl, hrest]
          rfl

/-- **Values read back.** By induction on the value; a list or object is read member by member. -/
theorem readsBack {v : Json} (h : WellWritten v) : ReadsBack v := by
  have hpos := compact_length_pos h
  induction h with
  | null =>
      intro n rest hn _
      obtain ⟨m, rfl⟩ : ∃ m, n = m + 1 := ⟨n - 1, by omega⟩
      rfl
  | bool b =>
      intro n rest hn _
      obtain ⟨m, rfl⟩ : ∃ m, n = m + 1 := ⟨n - 1, by omega⟩
      cases b <;> rfl
  | number h =>
      intro n rest hn hrest
      obtain ⟨m, rfl⟩ : ∃ m, n = m + 1 := ⟨n - 1, by omega⟩
      obtain ⟨c, tail, htext, hc⟩ := exists_of_readNumberText? (h rest hrest)
      rw [compact, htext, readValue?_number hc, ← htext, h rest hrest]
      rfl
  | string h =>
      intro n rest hn _
      obtain ⟨m, rfl⟩ : ∃ m, n = m + 1 := ⟨n - 1, by omega⟩
      have htext : ∀ escaped : List Char, (Json.string escaped).compact ++ rest =
          '"' :: (escaped ++ '"' :: rest) := by
        simp [compact, quoted]
      rw [htext, readValue?, h]
      rfl
  | @array items h ih =>
      intro n rest hn _
      obtain ⟨m, rfl⟩ : ∃ m, n = m + 1 := ⟨n - 1, by omega⟩
      have hread : ∀ v ∈ items, ReadsBack v := fun v hv => ih v hv (compact_length_pos (h v hv))
      by_cases hne : items = []
      · subst hne
        rfl
      · rw [compact, List.length_append, List.length_cons, List.length_singleton] at hn
        rw [compact, List.append_assoc, List.cons_append, List.singleton_append,
          readValue?_array hne h, readItems?_compactItems hne h hread (by omega)]
        rfl
  | @object fields hkeys hvalues ih =>
      intro n rest hn _
      obtain ⟨m, rfl⟩ : ∃ m, n = m + 1 := ⟨n - 1, by omega⟩
      have hread : ∀ field ∈ fields, ReadsBack field.2 := fun field hfield =>
        ih field hfield (compact_length_pos (hvalues field hfield))
      by_cases hne : fields = []
      · subst hne
        rfl
      · rw [compact, List.length_append, List.length_cons, List.length_singleton] at hn
        rw [compact, List.append_assoc, List.cons_append, List.singleton_append,
          readValue?_object hne, readFields?_compactFields hne hkeys hvalues hread (by omega)]
        rfl

/-- **Compact text reads back.** -/
theorem read?_compact {v : Json} (h : WellWritten v) : read? v.compact = some v := by
  have hvalue := readsBack h (2 * v.compact.length + 2) [] (by omega) (by rintro _ ⟨⟩)
  have hstart := skipBlanks_compact h []
  rw [List.append_nil] at hvalue hstart
  rw [read?, hstart, hvalue]
  rfl

end InkAlgebra.Json

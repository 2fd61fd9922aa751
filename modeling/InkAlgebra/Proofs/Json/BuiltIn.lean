import Mathlib
import InkAlgebra.Json.BuiltIn
import InkAlgebra.Proofs.Json.Compact
import InkAlgebra.Proofs.Json.Lexeme
import InkAlgebra.Proofs.Json.Records

/-!
# The laws of the built-in format

What the built-in format writes is well written, so it is read back, and its records are made of the
fields that have their names.
-/

namespace InkAlgebra.Json

open JsonFormat (pick? valuesAt)

theorem wellWritten_of_plain {v : format.Value} (h : format.Plain v) : WellWritten v := by
  induction h with
  | text content => exact .string (isStringText_escape content)
  | number _ => exact wellWritten_ofFloat _
  | items _ ih => exact .array ih
  | @fields fields _ ih =>
      refine .object ?_ ?_
      · intro field hfield
        obtain ⟨⟨name, v⟩, _, rfl⟩ := List.mem_map.1 hfield
        exact isStringText_escape name.toList
      · intro field hfield
        obtain ⟨field, hmem, rfl⟩ := List.mem_map.1 hfield
        exact ih field hmem

theorem fields?_ofFields (fields : List (String × Json)) :
    (ofFields fields).fields? = some fields := by
  rw [ofFields, Json.fields?, List.mapM_map]
  induction fields with
  | nil => rfl
  | cons field rest ih =>
      rw [List.mapM_cons, ih]
      show ((unescape? (escape field.1.toList)).bind fun key => _).bind _ = _
      rw [unescape_escape, Option.bind_some, String.ofList_toList]
      rfl

theorem record?_of_fields? (names : List String) {v : Json} {fields : List (String × Json)}
    (h : v.fields? = some fields) : v.record? names = pick? names fields := by
  cases v with
  | object known =>
      show ((object known).fields?.bind fun known => names.mapM _) = _
      rw [h, Option.bind_some]
      refine mapM_congr fun name _ => ?_
      rw [valuesAt]
      cases fields.filter fun field => field.1 = name with
      | nil => rfl
      | cons field rest => cases rest <;> rfl
  | null => cases h
  | bool _ => cases h
  | number _ => cases h
  | string _ => cases h
  | array _ => cases h

/-- The built-in format reads what it writes. -/
theorem laws : format.Laws where
  read?_write h := read?_compact (wellWritten_of_plain h)
  text?_ofText := unescape_escape
  items?_ofItems _ := rfl
  fields?_ofFields := fields?_ofFields
  record?_fields names _ _ := record?_of_fields? names
  record?_items := by
    intro names v items h
    cases v with
    | array _ => cases h; rfl
    | object _ => cases h
    | null => cases h
    | bool _ => cases h
    | number _ => cases h
    | string _ => cases h
  record?_none := by
    intro names v hfields hitems
    cases v with
    | object known =>
        show ((object known).fields?.bind fun known => _) = none
        rw [show (object known).fields? = none from hfields]
        rfl
    | array _ => cases hitems
    | null => rfl
    | bool _ => rfl
    | number _ => rfl
    | string _ => rfl
  apart := by
    intro v fields h
    cases v with
    | object _ => exact ⟨rfl, rfl⟩
    | array _ => cases h
    | null => cases h
    | bool _ => cases h
    | number _ => cases h
    | string _ => cases h

/-- Of a number it matters only what it is worth where it is written. -/
theorem readsBack_format_iff (x : Float) : format.ReadsBack x ↔ (ofFloat x).float? = some x :=
  and_iff_right (read?_compact (wellWritten_ofFloat x))

end InkAlgebra.Json

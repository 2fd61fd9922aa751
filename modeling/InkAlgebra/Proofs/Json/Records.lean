import Mathlib
import InkAlgebra.Error
import InkAlgebra.Json.Format
import InkAlgebra.Proofs.Steps

/-!
# Records in objects

A record takes the fields of an object by their names. It does not matter in which order they are
written, nor what else is written between them. A field that is missing is told apart from one that
is there, and a name that is there twice makes the object none of a record.

The fields are taken without a look at their values (`pick?`), so that what is said about the one
also holds of what is made of the other (`pick?_map`).

§1 is taking fields, §2 order and other fields, §3 fields that are missing or repeated, §4 libraries
for JSON.
-/

namespace InkAlgebra

namespace JsonFormat

variable {β γ : Type}

/-! ## §1  Taking fields -/

def valuesAt (name : String) (fields : List (String × β)) : List β :=
  (fields.filter fun field => field.1 = name).map (·.2)

def atMostOne? (values : List β) : Option (Option β) :=
  if values.length ≤ 1 then some values.head? else none

/-- The values of fields with some names, in the order of the names. -/
def pick? (names : List String) (fields : List (String × β)) : Option (List (Option β)) :=
  names.mapM fun name => atMostOne? (valuesAt name fields)

/-- What is made of the values can be made before or after they are taken. -/
theorem pick?_map (names : List String) (f : β → γ) (fields : List (String × β)) :
    pick? names (fields.map (Prod.map id f)) =
      (pick? names fields).map (List.map (Option.map f)) := by
  refine mapM_eq_map_mapM (fun name => ?_) names
  have hvalues : valuesAt name (fields.map (Prod.map id f)) = (valuesAt name fields).map f := by
    simp only [valuesAt, List.filter_map, List.map_map]
    rfl
  rw [hvalues]
  simp only [atMostOne?, List.length_map, List.head?_map]
  split <;> rfl

/-! ## §2  Order and other fields -/

/-- Whether some fields are others in any order, with fields of other names between them. -/
def Extends (names : List String) (fields fields' : List (String × β)) : Prop :=
  ∃ others, fields'.Perm (fields ++ others) ∧ ∀ field ∈ others, field.1 ∉ names

variable {names : List String} {fields fields' others : List (String × β)}

theorem atMostOne?_perm {values values' : List β} (h : values.Perm values') :
    atMostOne? values = atMostOne? values' := by
  unfold atMostOne?
  rw [h.length_eq]
  split
  · rename_i hlength
    match values', hlength with
    | [], _ => rw [h.eq_nil]
    | [v], _ => rw [h.eq_singleton]
  · rfl

theorem pick?_perm (h : fields.Perm fields') : pick? names fields = pick? names fields' :=
  mapM_congr fun _ _ => atMostOne?_perm ((h.filter _).map _)

/-- Fields of other names are passed over. -/
theorem pick?_append_others (h : ∀ field ∈ others, field.1 ∉ names) :
    pick? names (fields ++ others) = pick? names fields := by
  refine mapM_congr fun name hname => ?_
  have hnone : others.filter (fun field => field.1 = name) = [] := by
    refine List.filter_eq_nil_iff.2 fun field hfield => ?_
    rw [decide_eq_true_iff]
    rintro rfl
    exact h field hfield hname
  rw [valuesAt, List.filter_append, hnone, List.append_nil]
  rfl

/-- **Order and other fields.** They change nothing of what is taken. -/
theorem Extends.pick?_eq (h : Extends names fields fields') :
    pick? names fields' = pick? names fields := by
  obtain ⟨others, hperm, hothers⟩ := h
  rw [pick?_perm hperm, pick?_append_others hothers]

/-! ## §3  Missing and repeated fields -/

/-- Whether each of some names is that of one field. -/
def HasOnce (names : List String) (fields : List (String × β)) : Prop :=
  ∀ name ∈ names, fields.countP (fun field => field.1 = name) = 1

theorem length_valuesAt (name : String) (fields : List (String × β)) :
    (valuesAt name fields).length = fields.countP fun field => field.1 = name := by
  rw [valuesAt, List.length_map, List.countP_eq_length_filter]

theorem mem_valuesAt {name : String} {v : β} (h : (name, v) ∈ fields) :
    v ∈ valuesAt name fields :=
  List.mem_map.2 ⟨(name, v), List.mem_filter.2 ⟨h, decide_eq_true rfl⟩, rfl⟩

/-- A value that is taken is the only one of its name. -/
theorem valuesAt_of_pick? {values : List β} (h : pick? names fields = some (values.map some)) :
    List.Forall₂ (fun name v => valuesAt name fields = [v]) names values := by
  rw [pick?, mapM_eq_some_iff_forall₂, List.forall₂_map_right_iff] at h
  refine h.imp fun name v hv => ?_
  unfold atMostOne? at hv
  split at hv
  · rename_i hlength
    match hat : valuesAt name fields, hlength with
    | [w], _ =>
        rw [hat] at hv
        rw [Option.some.inj (Option.some.inj hv)]
    | [], _ =>
        rw [hat] at hv
        cases Option.some.inj hv
  · cases hv

/-- **Missing and repeated fields.** Where all fields are there, each is there once. -/
theorem hasOnce_of_pick? {values : List β} (h : pick? names fields = some (values.map some)) :
    HasOnce names fields := by
  have hvalues := valuesAt_of_pick? h
  intro name hname
  rw [← length_valuesAt]
  clear h
  induction hvalues with
  | nil => cases hname
  | cons hv _ ih =>
      rcases List.mem_cons.1 hname with rfl | hname
      · rw [hv]
        rfl
      · exact ih hname

/-! ## §4  Libraries for JSON -/

variable (json : JsonFormat)

/-- Whether a number that is written is read as the same number. -/
def ReadsBack (x : Float) : Prop :=
  json.read? (json.write (json.ofNumber x)) = some (json.ofNumber x) ∧
    json.number? (json.ofNumber x) = some x

/-- Values made of texts, lists, objects, and numbers that are read back. -/
inductive Plain : json.Value → Prop
  | text (content : List Char) : Plain (json.ofText content)
  | number {x : Float} (h : json.ReadsBack x) : Plain (json.ofNumber x)
  | items {values : List json.Value} (h : ∀ v ∈ values, Plain v) : Plain (json.ofItems values)
  | fields {fields : List (String × json.Value)} (h : ∀ field ∈ fields, Plain field.2) :
      Plain (json.ofFields fields)

/-- What is known of a library for JSON: values are read as they are written, and a record is made
of the fields that have its names, or of a list of values in the order of the names. -/
structure Laws : Prop where
  read?_write : ∀ {v}, json.Plain v → json.read? (json.write v) = some v
  text?_ofText : ∀ content, json.text? (json.ofText content) = some content
  items?_ofItems : ∀ values, json.items? (json.ofItems values) = some values
  fields?_ofFields : ∀ fields, json.fields? (json.ofFields fields) = some fields
  record?_fields : ∀ names {v fields}, json.fields? v = some fields →
    json.record? names v = pick? names fields
  /-- The last fields may be missing in a list; surplus values are not passed over. -/
  record?_items : ∀ names {v items}, json.items? v = some items →
    json.record? names v =
      if items.length ≤ names.length
        then some (items.map some ++ List.replicate (names.length - items.length) none) else none
  record?_none : ∀ names {v}, json.fields? v = none → json.items? v = none →
    json.record? names v = none
  /-- An object is neither a text nor a number. -/
  apart : ∀ {v fields}, json.fields? v = some fields → json.text? v = none ∧ json.number? v = none

variable {json}

/-- Whether all fields with some names are there, each once. In a list they are there in the order
of the names. -/
inductive HasFields (names : List String) (v : json.Value) : Prop
  | object {fields : List (String × json.Value)} (hfields : json.fields? v = some fields)
      (h : HasOnce names fields)
  | array {items : List json.Value} (hitems : json.items? v = some items)
      (h : items.length = names.length)

theorem eq_of_padded {items values : List β} {n : ℕ}
    (h : items.map some ++ List.replicate n none = values.map some) : items = values := by
  have hpadding : none ∉ List.replicate n (none : Option β) := by
    intro hmem
    have hsome : none ∈ values.map some := h ▸ List.mem_append_right _ hmem
    obtain ⟨_, _, hv⟩ := List.mem_map.1 hsome
    cases hv
  obtain rfl : n = 0 := by
    by_contra hn
    exact hpadding (List.mem_replicate.2 ⟨hn, rfl⟩)
  rw [List.replicate_zero, List.append_nil] at h
  exact List.map_injective_iff.2 (Option.some_injective β) h

namespace Laws

variable (laws : json.Laws) {v : json.Value} {values : List json.Value}

include laws

/-- A value with all fields is a list of them or an object in which each is there once. -/
theorem record?_eq_some_map (h : json.record? names v = some (values.map some)) :
    (∃ fields, json.fields? v = some fields ∧ pick? names fields = some (values.map some)) ∨
      json.items? v = some values ∧ values.length = names.length := by
  cases hfields : json.fields? v with
  | some fields =>
      rw [laws.record?_fields names hfields] at h
      exact .inl ⟨fields, rfl, h⟩
  | none =>
      cases hitems : json.items? v with
      | none =>
          rw [laws.record?_none names hfields hitems] at h
          cases h
      | some items =>
          refine .inr ?_
          rw [laws.record?_items names hitems] at h
          split at h
          · rename_i hlength
            have hpadded := Option.some.inj h
            have hlengths := congrArg List.length hpadded
            rw [List.length_append, List.length_map, List.length_replicate, List.length_map]
              at hlengths
            rw [eq_of_padded hpadded]
            exact ⟨rfl, by omega⟩
          · cases h

theorem hasFields_of_record? (h : json.record? names v = some (values.map some)) :
    HasFields names v := by
  rcases laws.record?_eq_some_map h with ⟨fields, hfields, hpick⟩ | ⟨hitems, hlength⟩
  · exact .object hfields (hasOnce_of_pick? hpick)
  · exact .array hitems hlength

end Laws

end JsonFormat

end InkAlgebra

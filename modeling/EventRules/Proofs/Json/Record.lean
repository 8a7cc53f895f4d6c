import EventRules.Json.Record
import Mathlib.Data.List.Basic

/-! Records that are written and read again. A written record holds under each key what its members
have there, and the readers of fields come to what was written: an empty text, an empty list or an
absent value that was left out is the default for which it stands. -/
namespace EventRules.Json

variable {α : Type} {key k : String} {fields : List (String × Json)}
  {members : List (Option (String × Json))} {read : Json → Option α} {write : α → Json}

/-- The members of a record that are written. -/
def written (members : List (Option (String × Json))) : List (String × Json) :=
  members.filterMap id

theorem record_eq (members : List (Option (String × Json))) :
    record members = .object (written members) := rfl

@[simp] theorem fields?_record (names : List String) :
    (record members).fields? names = some (written members) := rfl

@[simp] theorem written_map_some (fields : List (String × Json)) :
    written (fields.map some) = fields := by
  simp [written, List.filterMap_map]

/-- The value of a member of a record under a key. -/
def valueAt (key : String) (member : Option (String × Json)) : Option Json :=
  member.bind fun e => if key = e.1 then some e.2 else none

@[simp] theorem lookup_written_nil : (written []).lookup key = none := rfl

@[simp] theorem lookup_written_cons (member : Option (String × Json)) :
    (written (member :: members)).lookup key =
      (valueAt key member).or ((written members).lookup key) := by
  cases member with
  | none => rfl
  | some e =>
    obtain ⟨other, value⟩ := e
    by_cases h : key = other
    · simp [written, valueAt, h]
    · simp [written, valueAt, List.lookup_cons, h, beq_eq_false_iff_ne.mpr h]

@[simp] theorem valueAt_some (value : Json) :
    valueAt key (some (k, value)) = if key = k then some value else none := rfl

@[simp] theorem valueAt_always (value : Json) :
    valueAt key (always k value) = if key = k then some value else none := rfl

@[simp] theorem valueAt_optional (value : Option Json) :
    valueAt key (optional k value) = if key = k then value else none := by
  cases value <;> simp [valueAt, optional]

/-- What is written for a text that is left out when it is empty. -/
def filled (s : String) : Option Json := if s = "" then none else some (.text s)

@[simp] theorem valueAt_unlessEmpty (s : String) :
    valueAt key (unlessEmpty k s) = if key = k then filled s else none := by
  by_cases h : s = "" <;> simp [valueAt, unlessEmpty, filled, h]

/-- What is written for a list that is left out when it is empty. -/
def nonempty (write : α → Json) (values : List α) : Option Json :=
  if values.isEmpty then none else some (.array (values.map write))

@[simp] theorem valueAt_ite_eq_nil (values : List α) [Decidable (values = [])] :
    valueAt key (if values = [] then none else some (k, .array (values.map write))) =
      if key = k then nonempty write values else none := by
  cases values <;> simp [valueAt, nonempty]

/-! What the readers of fields make of the value that is found. -/

@[simp] theorem fieldOr_eq (default : α) :
    fieldOr default read key fields = (fields.lookup key).elim (some default) read := by
  rw [fieldOr]
  cases fields.lookup key <;> rfl

/-- What is read from the value of an optional field, where it has one. -/
def optionalValue (read : Json → Option α) : Option Json → Option (Option α)
  | none => some none
  | some .null => some none
  | some value => (read value).map some

@[simp] theorem optionalField_eq :
    optionalField read key fields = optionalValue read (fields.lookup key) := by
  rw [optionalField]
  cases fields.lookup key with
  | none => rfl
  | some value => cases value <;> rfl

theorem optionalValue_map {value : Option α}
    (h : ∀ a ∈ value, write a ≠ .null ∧ read (write a) = some a) :
    optionalValue read (value.map write) = some value := by
  cases value with
  | none => rfl
  | some a =>
    obtain ⟨hnull, hread⟩ := h a rfl
    rw [Option.map_some, optionalValue, hread]
    · rfl
    · exact hnull

theorem exists_read_of_optionalField {value : Option α}
    (h : optionalField read key fields = some value) {a : α} (ha : a ∈ value) :
    ∃ v, read v = some a := by
  rw [optionalField_eq] at h
  obtain rfl : value = some a := ha
  rw [optionalValue.eq_def] at h
  split at h
  · simp at h
  · simp at h
  · exact ⟨_, by simpa using h⟩

theorem optionalValue_some {value : Option Json} (h : value ≠ some .null) :
    optionalValue some value = some value := by
  cases value with
  | none => rfl
  | some v => cases v <;> first | rfl | exact absurd rfl h

/-- A null is never read as the value of an optional field. -/
theorem ne_null_of_optionalField {value : Option Json}
    (h : optionalField some key fields = some value) : value ≠ some .null := by
  rw [optionalField_eq] at h
  rintro rfl
  cases hv : fields.lookup key with
  | none => simp [hv, optionalValue] at h
  | some v => cases v <;> simp [hv, optionalValue] at h

@[simp] theorem optionalValue_text (value : Option String) :
    optionalValue text? (value.map .text) = some value :=
  optionalValue_map fun _ _ => ⟨nofun, rfl⟩

@[simp] theorem filled_elim (s : String) : (filled s).elim (some "") text? = some s := by
  by_cases h : s = "" <;> simp [filled, text?, h]

theorem readAll_map {values : List α} (h : ∀ a ∈ values, read (write a) = some a) :
    readAll read (values.map write) = some values := by
  induction values with
  | nil => rfl
  | cons a rest ih => simp [readAll, h a, ih fun b hb => h b (by simp [hb])]

theorem list?_array_map {values : List α} (h : ∀ a ∈ values, read (write a) = some a) :
    list? read (.array (values.map write)) = some values := readAll_map h

theorem nonempty_elim {values : List α} (h : ∀ a ∈ values, read (write a) = some a) :
    (nonempty write values).elim (some []) (list? read) = some values := by
  cases hv : values.isEmpty with
  | true => simp_all [nonempty]
  | false => simpa [nonempty, hv] using list?_array_map h

@[simp] theorem list?_ofTexts (values : List String) :
    list? text? (ofTexts values) = some values := list?_array_map fun _ _ => rfl

theorem exists_read_of_readAll {items : List Json} {values : List α}
    (h : readAll read items = some values) {a : α} (ha : a ∈ values) : ∃ v, read v = some a := by
  induction items generalizing values with
  | nil =>
    obtain rfl : [] = values := by simpa [readAll] using h
    simp at ha
  | cons item rest ih =>
    obtain ⟨first, hfirst, h⟩ := Option.bind_eq_some_iff.mp h
    obtain ⟨others, hothers, h⟩ := Option.bind_eq_some_iff.mp h
    obtain rfl := Option.some.inj h
    rcases List.mem_cons.mp ha with rfl | ha
    · exact ⟨item, hfirst⟩
    · exact ih hothers ha

theorem exists_read_of_listField {values : List α} (h : listField read key fields = some values)
    {a : α} (ha : a ∈ values) : ∃ v, read v = some a := by
  rw [listField, fieldOr_eq] at h
  cases hv : fields.lookup key with
  | none =>
    obtain rfl : [] = values := by simpa [hv] using h
    simp at ha
  | some value =>
    rw [hv] at h
    obtain ⟨items, -, hitems⟩ := Option.bind_eq_some_iff.mp h
    exact exists_read_of_readAll hitems ha

end EventRules.Json

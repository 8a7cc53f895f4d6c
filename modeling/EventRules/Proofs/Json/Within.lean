import EventRules.Proofs.Json.Sentinel

/-! The values within a JSON value, at any depth. Reading the sentinel leaves no trace of it in any
of them, so that doing it again changes nothing. The keys of an object may become equal by it; where
they do not, the members stay in their places, and this is so where no key is empty. -/
namespace EventRules

theorem unquoteEmpty_ne_sentinel (s : String) : unquoteEmpty s ≠ emptySentinel := by
  unfold unquoteEmpty
  split
  · simp [emptySentinel]
  · assumption

/-- Texts that are not empty stay different. -/
theorem unquoteEmpty_inj {s t : String} (hs : s ≠ "") (ht : t ≠ "")
    (h : unquoteEmpty s = unquoteEmpty t) : s = t := by
  by_cases hsentinel : t = emptySentinel
  · have hempty : unquoteEmpty s = "" := h.trans (if_pos hsentinel)
    rw [(unquoteEmpty_eq_empty_iff.mp hempty).resolve_left hs, hsentinel]
  · rw [unquoteEmpty_of_ne hsentinel] at h
    exact (unquoteEmpty_eq_iff ⟨ht, hsentinel⟩).mp h

namespace Json

/-- A statement holds of every value if it holds of a container whenever it holds of what the
container holds. -/
@[elab_as_elim]
theorem nesting {motive : Json → Prop} (null : motive .null) (bool : ∀ b, motive (.bool b))
    (number : ∀ n, motive (.number n)) (text : ∀ s, motive (.text s))
    (array : ∀ items, (∀ item ∈ items, motive item) → motive (.array items))
    (object : ∀ members, (∀ e ∈ members, motive e.2) → motive (.object members)) :
    ∀ v, motive v
  | .null => null
  | .bool b => bool b
  | .number n => number n
  | .text s => text s
  | .array items => array items fun item _hitem =>
    nesting null bool number text array object item
  | .object members => object members fun e _he =>
    nesting null bool number text array object e.2
termination_by v => sizeOf v
decreasing_by
  · have := List.sizeOf_lt_of_mem _hitem
    simp only [Json.array.sizeOf_spec]
    omega
  · have := List.sizeOf_lt_of_mem _he
    obtain ⟨key, value⟩ := e
    simp only [Prod.mk.sizeOf_spec] at this
    simp only [Json.object.sizeOf_spec]
    omega

/-- One value is within another: it is the whole, or within an item or a member. -/
inductive Within (part : Json) : Json → Prop
  | self : Within part part
  | item {items : List Json} {v : Json} (hv : v ∈ items) (h : Within part v) :
      Within part (.array items)
  | member {members : List (String × Json)} {e : String × Json} (he : e ∈ members)
      (h : Within part e.2) : Within part (.object members)

variable {part v : Json} {items : List Json} {members : List (String × Json)}

theorem within_text {s : String} : part.Within (.text s) ↔ part = .text s := by
  constructor
  · rintro ⟨⟩
    rfl
  · rintro rfl
    exact .self

theorem within_array : part.Within (.array items) ↔
    part = .array items ∨ ∃ v ∈ items, part.Within v := by
  constructor
  · rintro (_ | ⟨hv, h⟩)
    · exact .inl rfl
    · exact .inr ⟨_, hv, h⟩
  · rintro (rfl | ⟨v, hv, h⟩)
    · exact .self
    · exact .item hv h

theorem within_object : part.Within (.object members) ↔
    part = .object members ∨ ∃ e ∈ members, part.Within e.2 := by
  constructor
  · rintro (_ | _ | ⟨he, h⟩)
    · exact .inl rfl
    · exact .inr ⟨_, he, h⟩
  · rintro (rfl | ⟨e, he, h⟩)
    · exact .self
    · exact .member he h

/-- The members of an object once the sentinel is read. -/
def unquoted (members : List (String × Json)) : List (String × Json) :=
  Ordered.ofPairs (members.map fun e => (unquoteEmpty e.1, e.2.unquote))

theorem plainKeys_unquoted (members : List (String × Json)) : PlainKeys (unquoted members) where
  nodup := Ordered.keys_ofPairs_nodup _
  notMem h := by
    obtain ⟨value, hvalue⟩ := Ordered.mem_keys.mp (Ordered.mem_keys_ofPairs.mp h)
    obtain ⟨e, -, he⟩ := List.mem_map.mp hvalue
    exact unquoteEmpty_ne_sentinel e.1 (congrArg Prod.fst he)

theorem exists_of_mem_unquoted {e : String × Json} (h : e ∈ unquoted members) :
    ∃ e' ∈ members, e.2 = e'.2.unquote := by
  obtain ⟨front, back, hmap, -⟩ := Ordered.mem_ofPairs.mp h
  have hmem : e ∈ members.map fun e => (unquoteEmpty e.1, e.2.unquote) := by
    rw [hmap]
    simp
  obtain ⟨e', he', rfl⟩ := List.mem_map.mp hmem
  exact ⟨e', he', rfl⟩

/-- Neither a text nor a key within the value is the sentinel. -/
def Unquoted (v : Json) : Prop :=
  (∀ s, (text s).Within v → s ≠ emptySentinel) ∧
    ∀ members, (object members).Within v → emptySentinel ∉ Ordered.keys members

theorem unquoted_array : (array items).Unquoted ↔ ∀ v ∈ items, v.Unquoted := by
  simp only [Unquoted, within_array, reduceCtorEq, false_or]
  grind

theorem unquoted_object : (object members).Unquoted ↔
    emptySentinel ∉ Ordered.keys members ∧ ∀ e ∈ members, e.2.Unquoted := by
  simp only [Unquoted, within_object, reduceCtorEq, false_or, object.injEq]
  grind

theorem unquoted_unquote (v : Json) : v.unquote.Unquoted := by
  induction v using nesting with
  | null =>
    rw [unquote]
    constructor <;> intro _ h <;> cases h
  | bool b =>
    rw [unquote]
    constructor <;> intro _ h <;> cases h
  | number n =>
    rw [unquote]
    constructor <;> intro _ h <;> cases h
  | text s =>
    rw [unquote_text]
    constructor
    · intro t ht
      obtain ⟨rfl⟩ := within_text.mp ht
      exact unquoteEmpty_ne_sentinel s
    · intro _ h
      cases h
  | array items ih =>
    rw [unquote_array, unquoted_array]
    simpa using ih
  | object members ih =>
    rw [unquote_object]
    refine unquoted_object.mpr ⟨(plainKeys_unquoted members).notMem, fun e he => ?_⟩
    obtain ⟨e', he', hvalue⟩ := exists_of_mem_unquoted he
    rw [hvalue]
    exact ih e' he'

theorem unquote_unquote (v : Json) : v.unquote.unquote = v.unquote := by
  induction v using nesting with
  | null => rw [unquote, unquote]
  | bool b => rw [unquote, unquote]
  | number n => rw [unquote, unquote]
  | text s => rw [unquote_text, unquote_text, unquoteEmpty_of_ne (unquoteEmpty_ne_sentinel s)]
  | array items ih =>
    rw [unquote_array, unquote_array, List.map_map]
    exact congrArg _ (List.map_congr_left ih)
  | object members ih =>
    have hsame : ∀ e ∈ unquoted members, (e.1, e.2.unquote) = e := by
      intro e he
      obtain ⟨e', he', hvalue⟩ := exists_of_mem_unquoted he
      rw [hvalue, ih e' he', ← hvalue]
    rw [Json.unquote_object]
    change (object (unquoted members)).unquote = .object (unquoted members)
    rw [(plainKeys_unquoted members).unquote_object, List.map_congr_left hsame, List.map_id']

/-- No two keys become equal when the sentinel is read. -/
def KeysStay (members : List (String × Json)) : Prop :=
  ((Ordered.keys members).map unquoteEmpty).Nodup

/-- Members whose keys stay apart stay in their places. -/
theorem KeysStay.unquote_object (h : KeysStay members) : (object members).unquote =
    .object (members.map fun e => (unquoteEmpty e.1, e.2.unquote)) := by
  rw [Json.unquote_object, Ordered.ofPairs_eq_self]
  simpa [KeysStay, Ordered.keys, Function.comp_def] using h

theorem PlainKeys.keysStay (h : PlainKeys members) : KeysStay members := by
  refine h.nodup.map_on fun key hkey other hother heq => ?_
  rwa [unquoteEmpty_of_ne (ne_of_mem_of_not_mem hkey h.notMem),
    unquoteEmpty_of_ne (ne_of_mem_of_not_mem hother h.notMem)] at heq

/-- The keys are distinct and none of them is empty. -/
structure FilledKeys {α : Type} (table : List (String × α)) : Prop where
  nodup : (Ordered.keys table).Nodup
  notMem : "" ∉ Ordered.keys table

namespace FilledKeys

variable {α : Type} {table : List (String × α)} (h : FilledKeys table) (toJson : α → Json)
include h

theorem keysStay : KeysStay (table.map fun e => (e.1, toJson e.2)) := by
  have hkeys : Ordered.keys (table.map fun e => (e.1, toJson e.2)) = Ordered.keys table := by
    simp [Ordered.keys]
  rw [KeysStay, hkeys]
  refine h.nodup.map_on fun key hkey other hother heq => ?_
  exact unquoteEmpty_inj (ne_of_mem_of_not_mem hkey h.notMem)
    (ne_of_mem_of_not_mem hother h.notMem) heq

theorem unquote_object : (object (table.map fun e => (e.1, toJson e.2))).unquote =
    .object (table.map fun e => (unquoteEmpty e.1, (toJson e.2).unquote)) := by
  rw [(h.keysStay toJson).unquote_object, List.map_map]
  rfl

end FilledKeys

/-- In no object within the value two keys become equal. -/
def Kept (v : Json) : Prop := ∀ members, (object members).Within v → KeysStay members

@[simp] theorem kept_text (s : String) : (text s).Kept := nofun

@[simp] theorem kept_bool (b : Bool) : (bool b).Kept := nofun

@[simp] theorem kept_array : (array items).Kept ↔ ∀ v ∈ items, v.Kept := by
  simp only [Kept, within_array, reduceCtorEq, false_or]
  grind

theorem kept_object : (object members).Kept ↔ KeysStay members ∧ ∀ e ∈ members, e.2.Kept := by
  simp only [Kept, within_object, object.injEq]
  grind

@[simp] theorem kept_ofTexts (values : List String) : (ofTexts values).Kept := by
  rw [ofTexts, kept_array]
  simp

end Json

end EventRules

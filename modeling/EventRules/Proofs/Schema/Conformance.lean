import EventRules.Proofs.Filter.Meaning
import EventRules.Proofs.Pipeline.Document
import EventRules.Schema.Pipeline

/-! What the schema finds in a document. Filters and processors always conform to it, whatever is in
them, and so do blocks apart from the phase: there is one violation for each block whose phase is
empty once the sentinel is read, and no other. -/
namespace EventRules

namespace Ordered

variable {α : Type} {key : String} {table : List (String × α)}

theorem eq_of_mem_of_mem (h : (keys table).Nodup) {v w : α} (hv : (key, v) ∈ table)
    (hw : (key, w) ∈ table) : v = w :=
  (Prod.mk.inj (List.inj_on_of_nodup_map h hv hw rfl)).2

end Ordered

namespace Schema

theorem listed_eq_nil {names : List String} {name : String} (h : name ∈ names) :
    listed names (.text name) = [] := by
  simp [listed, h]

theorem requires_eq_nil {keys : List String} {members : List (String × Json)}
    (h : ∀ key ∈ keys, key ∈ Ordered.keys members) : requires keys (.object members) = [] := by
  rw [requires, List.map_eq_nil_iff, List.filter_eq_nil_iff]
  exact fun key hkey => by simpa using Ordered.contains_iff.mpr (h key hkey)

/-- Objects of a known class whose class stands under its key alone. -/
theorem class_conforms {names : List String} {name : String} {members : List (String × Json)}
    (hkeys : (Ordered.keys members).Nodup) (hclass : ("class", Json.text name) ∈ members)
    (hname : name ∈ names) {value : Json} (hvalue : ("class", value) ∈ members) :
    listed names value = [] := by
  rw [Ordered.eq_of_mem_of_mem hkeys hvalue hclass, listed_eq_nil hname]

theorem filterMembers_eq (members : List (String × Json)) : filterMembers members =
    members.flatMap fun e => if e.1 = "class" then listed filterClasses e.2
      else if e.1 = "filters" then filterArray e.2 else [] := by
  induction members with
  | nil => simp [filterMembers]
  | cons entry rest ih => simp [filterMembers, ih]

variable {name : String} {members : List (String × Json)}

theorem filter_eq_nil (hkeys : (Ordered.keys members).Nodup)
    (hclass : ("class", Json.text name) ∈ members) (hname : name ∈ filterClasses)
    (hfilters : ∀ value, ("filters", value) ∈ members → filterArray value = []) :
    filter (.object members) = [] := by
  rw [filter, filterMembers_eq, List.append_eq_nil_iff, List.flatMap_eq_nil_iff]
  refine ⟨fun e he => ?_, requires_eq_nil ?_⟩
  · obtain ⟨key, value⟩ := e
    dsimp only
    split_ifs with hkey hkey'
    · subst hkey
      exact class_conforms hkeys hclass hname he
    · subst hkey'
      exact hfilters value he
    · rfl
  · simpa using Ordered.mem_keys.mpr ⟨_, hclass⟩

theorem processor_eq_nil (hkeys : (Ordered.keys members).Nodup)
    (hclass : ("class", Json.text name) ∈ members) (hname : name ∈ processorClasses) :
    processor (.object members) = [] := by
  rw [processor, List.append_eq_nil_iff, List.flatMap_eq_nil_iff]
  refine ⟨fun e he => ?_, requires_eq_nil ?_⟩
  · obtain ⟨key, value⟩ := e
    dsimp only
    split_ifs with hkey
    · subst hkey
      exact class_conforms hkeys hclass hname he
    · rfl
  · simpa using Ordered.mem_keys.mpr ⟨_, hclass⟩

end Schema

theorem Operator.className_mem (op : Operator) : op.className ∈ Schema.filterClasses := by
  cases op <;> decide

theorem GroupKind.className_mem (kind : GroupKind) : kind.className ∈ Schema.filterClasses := by
  cases kind <;> decide

theorem Processor.className_mem (p : Processor) : p.className ∈ Schema.processorClasses := by
  cases p <;> simp [className, Schema.processorClasses]

namespace Filter

/-- No class of filters is the sentinel. -/
theorem unquote_class {name : String} (h : name ∈ Schema.filterClasses) :
    unquoteEmpty name = name :=
  unquoteEmpty_of_ne (ne_of_mem_of_not_mem h (by decide))

/-- A filter that holds no others conforms. -/
theorem leaf_conforms {name key key' : String} {v v' : Json} (hname : name ∈ Schema.filterClasses)
    (hkeys : Json.PlainKeys [(key, v), (key', v'), ("class", .text name)])
    (hkey : key ≠ "filters") (hkey' : key' ≠ "filters") :
    Schema.filter (Json.object [(key, v), (key', v'), ("class", .text name)]).unquote = [] := by
  rw [hkeys.unquote_object]
  refine Schema.filter_eq_nil hkeys.nodup ?_ hname ?_
  · simp [unquote_class hname]
  · simp [hkey.symm, hkey'.symm]

mutual

theorem conforms : (f : Filter) → Schema.filter f.toJson.unquote = []
  | .group kind members => by
    have hkeys := plainKeys (.group kind members)
    rw [toJson_eq, hkeys.unquote_object]
    refine Schema.filter_eq_nil hkeys.nodup ?_ kind.className_mem ?_
    · simp [fields, unquote_class kind.className_mem]
    · intro value hvalue
      obtain rfl : value = .array (members.map fun f => f.toJson.unquote) := by
        simpa [fields, listToJson_eq, Function.comp_def] using hvalue
      rw [Schema.filterArray, all_conform members]
  | .text op subject value => by
    rw [toJson]
    exact leaf_conforms op.className_mem (plainKeys (.text op subject value)) (by simp) (by simp)
  | .single op field value => by
    rw [toJson]
    exact leaf_conforms op.className_mem (plainKeys (.single op field value)) (by simp) (by simp)
  | .many op field values => by
    rw [toJson]
    exact leaf_conforms op.className_mem (plainKeys (.many op field values)) (by simp) (by simp)
  | .presence op field => by
    rw [toJson]
    exact leaf_conforms op.className_mem (plainKeys (.presence op field)) (by simp) (by simp)

theorem all_conform : (members : List Filter) →
    Schema.filterItems (members.map fun f => f.toJson.unquote) = []
  | [] => by simp [Schema.filterItems]
  | f :: rest => by simp [Schema.filterItems, conforms f, all_conform rest]

end

end Filter

theorem Processor.conforms (p : Processor) : Schema.processor p.toJson.unquote = [] := by
  have hkeys : (Ordered.keys (p.fields.map fun e => (e.1, e.2.unquote))).Nodup := by
    simpa [Ordered.keys, Function.comp_def] using p.plainKeys.nodup
  rw [toJson_eq, p.plainKeys.unquote_object]
  refine Schema.processor_eq_nil hkeys ?_ p.className_mem
  exact List.mem_map.mpr ⟨("class", .text p.className), by simp [fields],
    by simp [unquoteEmpty_of_ne p.className_ne_sentinel]⟩

/-- Only the phase of a block can be at fault. -/
theorem PhaseBlock.violations (b : PhaseBlock) :
    Schema.block b.toJson.unquote = Schema.filledText (.text (unquoteEmpty b.phase)) := by
  rw [toJson_eq, b.plainKeys.unquote_object]
  have hprocessors : Schema.processors
      (.array (b.processors.map fun p => p.toJson.unquote)) = [] := by
    simp [Schema.processors, List.flatMap_map, Processor.conforms]
  cases h : b.filter with
  | none =>
    simp [fields, h, Schema.block, Schema.blockMember, Schema.onlyMembers, Schema.requires,
      Ordered.contains, List.lookup_cons, Function.comp_def, hprocessors]
  | some f =>
    simp [fields, h, Schema.block, Schema.blockMember, Schema.onlyMembers, Schema.requires,
      Ordered.contains, List.lookup_cons, Function.comp_def, hprocessors, f.conforms]

namespace Pipeline

variable {p : Pipeline}

theorem violations_eq_flatMap (h : 2 ≤ p.blocks.length) : Schema.pipeline p.toJson =
    p.names.flatMap fun q => Schema.filledText (.text (unquoteEmpty q)) := by
  have hblocks : Schema.blocks (.array (p.blocks.map fun b => b.toJson.unquote)) =
      p.names.flatMap fun q => Schema.filledText (.text (unquoteEmpty q)) := by
    rw [Schema.blocks, if_neg (by rw [List.length_map]; omega), List.nil_append, names,
      List.flatMap_map, List.flatMap_map]
    exact List.flatMap_congr fun b _ => b.violations
  rw [toJson_eq]
  simp [Schema.pipeline, Schema.onlyMembers, Schema.requires, Ordered.contains, hblocks]

/-- A document of two blocks or more has one violation for each block whose phase is empty once the
sentinel is read, and no other. -/
theorem violations_toJson (h : 2 ≤ p.blocks.length) : Schema.pipeline p.toJson =
    List.replicate (p.names.countP fun q => unquoteEmpty q = "") (.emptyText (.text "")) := by
  rw [violations_eq_flatMap h]
  induction p.names with
  | nil => rfl
  | cons q rest ih =>
    rw [List.flatMap_cons, ih, List.countP_cons]
    by_cases hq : unquoteEmpty q = ""
    · simp [hq, Schema.filledText, List.replicate_succ]
    · simp [hq, Schema.filledText]

theorem named_of_conforms (hlength : 2 ≤ p.blocks.length) (h : Schema.pipeline p.toJson = []) :
    p.Named := by
  rw [violations_toJson hlength, List.replicate_eq_nil_iff, List.countP_eq_zero] at h
  intro q hq
  simpa [unquoteEmpty_eq_empty_iff] using h q hq

end Pipeline

end EventRules

import EventRules.Proofs.Json.Sentinel
import EventRules.Proofs.Pipeline.Run

/-! Reading a finished document: its blocks, the phase that a block carries and the phases that its
processors run. What is read from the document of some blocks is what these blocks have, with the
sentinel read as the empty text. -/
namespace EventRules

namespace Json

/-- The items of an array under a key. -/
def itemsUnder (key : String) (value : Json) : List Json :=
  ((value.member? key).bind items?).getD []

def textUnder? (key : String) (value : Json) : Option String := (value.member? key).bind text?

/-- The blocks of a document. -/
def blocks (document : Json) : List Json := document.itemsUnder "processing"

/-- The phase that a block carries. -/
def phaseName? (block : Json) : Option String := block.textUnder? "phase"

/-- The phase that a processor runs, when its class is that of jumps. -/
def run? (processor : Json) : Option String :=
  if processor.textUnder? "class" = some "RunPhase" then processor.textUnder? "phase" else none

/-- The phases that a block runs, in the order of its processors. -/
def runs (block : Json) : List String := (block.itemsUnder "processors").filterMap run?

/-- The phase carried by the block at a place. -/
def phaseAt? (document : Json) (place : ℕ) : Option String :=
  document.blocks[place]?.bind phaseName?

/-- Some block that carries the one phase runs the other. -/
def Enters (document : Json) (phase other : String) : Prop :=
  ∃ block ∈ document.blocks, block.phaseName? = some phase ∧ other ∈ block.runs

/-- What each block carries and runs. -/
def outline (document : Json) : List (Option String × List String) :=
  document.blocks.map fun block => (block.phaseName?, block.runs)

theorem phaseAt?_eq_outline (document : Json) (place : ℕ) :
    document.phaseAt? place = document.outline[place]?.bind Prod.fst := by
  rw [phaseAt?, outline, List.getElem?_map]
  cases document.blocks[place]? <;> rfl

theorem enters_iff_outline {document : Json} {phase other : String} :
    document.Enters phase other ↔
      ∃ entry ∈ document.outline, entry.1 = some phase ∧ other ∈ entry.2 := by
  simp [Enters, outline]

theorem exists_of_outline {ε : Type} {result : Except ε Json}
    {entries : List (Option String × List String)}
    (h : result.toOption.map outline = some entries) :
    ∃ json, result = .ok json ∧ json.outline = entries := by
  cases result with
  | error fault => simp [Except.toOption] at h
  | ok json => exact ⟨json, rfl, Option.some.inj h⟩

end Json

namespace Filter

/-- The members of a filter. -/
def fields : Filter → List (String × Json)
  | .group kind members =>
    [("filters", .array (listToJson members)), ("class", .text kind.className)]
  | .text op subject value =>
    [("string", .text subject), ("value", .text value), ("class", .text op.className)]
  | .single op field value =>
    [("field", .text field), ("value", .text value), ("class", .text op.className)]
  | .many op field values =>
    [("field", .text field), ("values", .ofTexts values), ("class", .text op.className)]
  | .presence op field =>
    [("field", .text field), ("emptyIsAssigned", .bool false), ("class", .text op.className)]

theorem toJson_eq (f : Filter) : f.toJson = .object f.fields := by
  cases f <;> rw [toJson, fields]

theorem plainKeys (f : Filter) : Json.PlainKeys f.fields := by
  cases f <;> constructor <;> simp [fields, emptySentinel]

end Filter

namespace Processor

/-- The members of a processor that are there. -/
def fields (p : Processor) : List (String × Json) :=
  (p.members ++ [some ("class", Json.text p.className)]).filterMap id

theorem toJson_eq (p : Processor) : p.toJson = .object p.fields := rfl

theorem plainKeys (p : Processor) : Json.PlainKeys p.fields := by
  cases p with
  | mapValues table field toField default =>
    cases default <;> constructor <;> simp [fields, members, emptySentinel]
  | searchTopology field value filter outcome =>
    cases filter <;> cases outcome <;> constructor <;> simp [fields, members, emptySentinel]
  | _ => constructor <;> simp [fields, members, emptySentinel]

theorem className_ne_sentinel (p : Processor) : p.className ≠ emptySentinel := by
  cases p <;> simp [className, emptySentinel]

theorem lookup_class (p : Processor) : p.fields.lookup "class" = some (.text p.className) := by
  cases p with
  | mapValues table field toField default => cases default <;> rfl
  | searchTopology field value filter outcome => cases filter <;> cases outcome <;> rfl
  | _ => rfl

theorem className_eq_run_iff {p : Processor} : p.className = "RunPhase" ↔ ∃ q, p = .runPhase q := by
  cases p <;> simp [className]

theorem run?_toJson (p : Processor) : p.toJson.unquote.run? = p.jump?.map unquoteEmpty := by
  have hclass : p.toJson.unquote.textUnder? "class" = some p.className := by
    rw [Json.textUnder?, toJson_eq, p.plainKeys.member?_unquote, lookup_class]
    simp [Json.text?, unquoteEmpty_of_ne p.className_ne_sentinel]
  rw [Json.run?, hclass]
  split
  next hrun =>
    obtain ⟨q, rfl⟩ := className_eq_run_iff.mp (Option.some.inj hrun)
    rw [Json.textUnder?, toJson_eq, (plainKeys _).member?_unquote]
    simp [fields, members, jump?, Json.text?]
  next hrun => cases p <;> simp_all [className, jump?]

end Processor

namespace PhaseBlock

/-- The members of a block that are there. -/
def fields (b : PhaseBlock) : List (String × Json) :=
  [some ("phase", Json.text b.phase), b.filter.map fun f => ("filter", f.toJson),
    some ("processors", .array (b.processors.map Processor.toJson))].filterMap id

theorem toJson_eq (b : PhaseBlock) : b.toJson = .object b.fields := rfl

theorem plainKeys (b : PhaseBlock) : Json.PlainKeys b.fields := by
  cases h : b.filter <;> constructor <;> simp [fields, h, emptySentinel]

theorem phaseName?_toJson (b : PhaseBlock) :
    b.toJson.unquote.phaseName? = some (unquoteEmpty b.phase) := by
  rw [Json.phaseName?, Json.textUnder?, toJson_eq, b.plainKeys.member?_unquote]
  simp [fields, Json.text?]

theorem runs_toJson (b : PhaseBlock) : b.toJson.unquote.runs = b.jumps.map unquoteEmpty := by
  have hitems : b.toJson.unquote.itemsUnder "processors" =
      b.processors.map fun p => p.toJson.unquote := by
    rw [Json.itemsUnder, toJson_eq, b.plainKeys.member?_unquote]
    cases h : b.filter <;> simp [fields, h, Json.items?, List.lookup_cons]
  rw [Json.runs, hitems, List.filterMap_map, jumps, List.map_filterMap]
  exact List.filterMap_congr fun p _ => p.run?_toJson

end PhaseBlock

namespace Pipeline

variable {p : Pipeline}

theorem plainKeys (p : Pipeline) :
    Json.PlainKeys [("processing", Json.array (p.blocks.map PhaseBlock.toJson))] := by
  constructor <;> simp [emptySentinel]

theorem toJson_eq (p : Pipeline) : p.toJson =
    .object [("processing", .array (p.blocks.map fun b => b.toJson.unquote))] := by
  rw [toJson, toRawJson, p.plainKeys.unquote_object]
  simp

theorem blocks_toJson (p : Pipeline) :
    p.toJson.blocks = p.blocks.map fun b => b.toJson.unquote := by
  rw [Json.blocks, toJson_eq]
  rfl

theorem phaseAt?_toJson (i : ℕ) : p.toJson.phaseAt? i = (p.names[i]?).map unquoteEmpty := by
  rw [Json.phaseAt?, blocks_toJson, names, List.getElem?_map, List.getElem?_map]
  cases p.blocks[i]? <;> simp [PhaseBlock.phaseName?_toJson]

theorem enters_toJson {phase other : String} : p.toJson.Enters phase other ↔
    ∃ b ∈ p.blocks, unquoteEmpty b.phase = phase ∧ ∃ q ∈ b.jumps, unquoteEmpty q = other := by
  simp [Json.Enters, blocks_toJson, PhaseBlock.phaseName?_toJson, PhaseBlock.runs_toJson]

/-- The phase of each block is neither empty nor the sentinel. -/
def Named (p : Pipeline) : Prop := ∀ q ∈ p.names, q ≠ "" ∧ q ≠ emptySentinel

namespace Named

variable (h : p.Named)
include h

theorem phaseAt?_toJson (i : ℕ) : p.toJson.phaseAt? i = p.names[i]? := by
  rw [Pipeline.phaseAt?_toJson]
  cases hi : p.names[i]? with
  | none => rfl
  | some q => exact congrArg some (unquoteEmpty_of_ne (h q (List.mem_of_getElem? hi)).2)

theorem enters_toJson {phase other : String} : p.toJson.Enters phase other ↔
    ∃ b ∈ p.blocks, b.phase = phase ∧ ∃ q ∈ b.jumps, unquoteEmpty q = other := by
  rw [Pipeline.enters_toJson]
  refine exists_congr fun b => and_congr_right fun hb => ?_
  rw [unquoteEmpty_of_ne (h b.phase (List.mem_map_of_mem hb)).2]

theorem enters_self_iff {phase : String} : p.toJson.Enters phase phase ↔
    ∃ b ∈ p.blocks, b.phase = phase ∧ phase ∈ b.jumps := by
  rw [h.enters_toJson]
  refine exists_congr fun b => and_congr_right fun hb => and_congr_right ?_
  rintro rfl
  simp [unquoteEmpty_eq_iff (h b.phase (List.mem_map_of_mem hb))]

end Named

end Pipeline

end EventRules

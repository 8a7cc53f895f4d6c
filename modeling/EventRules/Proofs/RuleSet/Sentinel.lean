import EventRules.Proofs.Pipeline.Layout
import EventRules.Proofs.Processor.Keys

/-! The sentinel in the document of a ruleset. Reading it leaves none behind, in whatever value; and
in the document of an accepted ruleset it brings no two members of an object together. -/
namespace EventRules

namespace PhaseBlock

/-- The keys in the processors of the block are filled and different. -/
def Tidy (b : PhaseBlock) : Prop := ∀ p ∈ b.processors, p.Tidy

variable {b : PhaseBlock}

theorem Tidy.jumpingTo (h : b.Tidy) (phase : String) : (b.jumpingTo phase).Tidy := by
  intro p hp
  obtain hp | rfl : p ∈ b.processors ∨ p = .runPhase phase := by
    simpa [PhaseBlock.jumpingTo] using hp
  · exact h p hp
  · exact True.intro

theorem Tidy.kept (h : b.Tidy) : b.toJson.Kept := by
  rw [toJson_eq, Json.kept_object]
  refine ⟨b.plainKeys.keysStay, ?_⟩
  have hprocessors : ∀ p ∈ b.processors, p.toJson.Kept := fun p hp => Processor.kept (h p hp)
  cases hfilter : b.filter with
  | none => simpa [fields, hfilter] using hprocessors
  | some f => simpa [fields, hfilter, f.kept] using hprocessors

theorem within_toJson {p : Processor} {part : Json} (hp : p ∈ b.processors)
    (h : part.Within p.toJson) : part.Within b.toJson := by
  have hfield : ("processors", Json.array (b.processors.map Processor.toJson)) ∈ b.fields := by
    simp [fields]
  rw [toJson_eq]
  exact .member hfield (.item (List.mem_map_of_mem hp) h)

end PhaseBlock

namespace Pipeline

variable {phases : Phases} {p : Pipeline}

theorem kept_toRawJson (h : ∀ b ∈ p.blocks, b.Tidy) : p.toRawJson.Kept := by
  rw [toRawJson, Json.kept_object]
  exact ⟨p.plainKeys.keysStay, by simpa using fun b hb => (h b hb).kept⟩

theorem within_toRawJson {b : PhaseBlock} {part : Json} (hb : b ∈ p.blocks)
    (h : part.Within b.toJson) : part.Within p.toRawJson :=
  .member (List.mem_singleton.mpr rfl) (.item (List.mem_map_of_mem hb) h)

theorem tidy_entryBlock (phases : Phases) (notify : Option String) (first : String) :
    (entryBlock phases notify first).Tidy := by
  intro p hp
  unfold entryBlock at hp
  split at hp
  · obtain rfl | rfl : p = .convertSnmp ∨ p = .runPhase first := by simpa using hp
    · exact True.intro
    · exact True.intro
  · obtain rfl : p = .runPhase first := by simpa using hp
    exact True.intro

theorem tidy_publishBlock (phases : Phases) : (publishBlock phases).Tidy := by
  intro p hp
  obtain rfl : p = .runPhase phases.publish := by simpa [publishBlock] using hp
  exact True.intro

theorem Emits.tidy {r : Rule} {b : PhaseBlock} (h : Emits phases r b) (hr : r.check.accepts) :
    b.Tidy := by
  obtain ⟨own, hown, hb⟩ := h
  obtain ⟨filter, processors, -, hprocessors, rfl⟩ := Rule.block_eq_ok.mp hown
  obtain ⟨-, -, ⟨-, hactions⟩, -⟩ := Rule.accepts_check.mp hr
  have htidy : PhaseBlock.Tidy { phase := r.phaseOr phases.run, filter, processors } :=
    Action.tidy_of_processors hactions hprocessors
  rcases hb with rfl | ⟨phase, rfl⟩
  · exact htidy
  · exact htidy.jumpingTo phase

/-- The blocks of accepted rules are tidy, and so are those around them. -/
theorem tidy_of_ofRuleSet {s : RuleSet} (h : ∀ r ∈ s.rules, r.check.accepts)
    (hp : ofRuleSet phases s = .ok p) : ∀ b ∈ p.blocks, b.Tidy := by
  obtain ⟨first, between, rfl, hemits⟩ := exists_layout hp
  intro b hb
  rw [surrounded] at hb
  simp only [List.mem_append, List.mem_cons, List.not_mem_nil, or_false] at hb
  rcases hb with (rfl | hb) | rfl
  · exact tidy_entryBlock phases s.notify? first
  · obtain ⟨r, hr, hemit⟩ := exists_of_forall₂ hemits hb
    exact hemit.tidy (h r (s.byGroup_perm.mem_iff.mp hr))
  · exact tidy_publishBlock phases

end Pipeline

/-- Reading the sentinel in a value leaves it neither as a text nor as a key, at any depth, and
reading it again changes nothing. An array keeps its items in their places, and the sentinel is read
in each. An accepted ruleset has a document, and every object in it keeps its members in their
places when the sentinel is read, each under its own key. -/
theorem sentinel_exact : (∀ v : Json, v.unquote.Unquoted ∧ v.unquote.unquote = v.unquote) ∧
    (∀ items : List Json, (Json.array items).unquote = .array (items.map Json.unquote)) ∧
    ∀ (catalog : Option Catalog) (s : RuleSet) (found : List Problem),
      (s.check catalog found).1 = true → ∀ phases, ∃ p, Pipeline.ofRuleSet phases s = .ok p ∧
        ∀ members, (Json.object members).Within p.toRawJson →
          ((Ordered.keys members).map unquoteEmpty).Nodup ∧
          (Json.object members).unquote =
            .object (members.map fun e => (unquoteEmpty e.1, e.2.unquote)) := by
  refine ⟨fun v => ⟨v.unquoted_unquote, v.unquote_unquote⟩, Json.unquote_array,
    fun catalog s found h phases => ?_⟩
  have hbuilt := s.check_built catalog
  rw [hbuilt.additive found, ← hbuilt.problems_eq_nil_iff] at h
  have haccepts := RuleSet.accepts_of_check h
  obtain ⟨p, hp⟩ := Pipeline.exists_ofRuleSet.mpr fun r hr =>
    Rule.exists_block (haccepts r hr) phases
  have hkept := Pipeline.kept_toRawJson (Pipeline.tidy_of_ofRuleSet haccepts hp)
  exact ⟨p, hp, fun members hmembers =>
    ⟨hkept members hmembers, (hkept members hmembers).unquote_object⟩⟩

/-- The sentinel as a key and as a value of a table, in a rule with nested conditions and two
assignments that become one. -/
theorem sentinel_exact_table :
    let table : ValueTable := { entries := [⟨"\"\"", "none"⟩, ⟨"1", "\"\""⟩] }
    let condition : Condition := .group {} "Any"
      [.comparison ⟨{}, "${x}", "contains", ["a", "\"\""]⟩, .comparison ⟨{}, "y", "assigned", []⟩]
    let actions : List Action :=
      [.copy "A" "1", .copy "B" "\"\"", .ofEffect "C" (.map { value := "y" } table)]
    let s : RuleSet :=
      { entries := [("u", { description := "d", condition := some condition, actions })] }
    let members : List (String × Json) := [("\"\"", .text "none"), ("1", .text "\"\"")]
    (s.check none []).1 = true ∧ ∃ p, Pipeline.ofRuleSet {} s = .ok p ∧
      (Json.object members).Within p.toRawJson ∧
      (Json.object members).unquote = .object [("", .text "none"), ("1", .text "")] := by
  intro table condition actions s members
  have h : (s.check none []).1 = true := by decide +kernel
  obtain ⟨p, hp, hkept⟩ := sentinel_exact.2.2 none s [] h {}
  let own : Processor := .mapValues [("\"\"", "none"), ("1", "\"\"")] "y" "C" none
  have hblocks : ∃ b ∈ p.blocks, own ∈ b.processors := by
    obtain ⟨q, hq, hblock⟩ : ∃ q, Pipeline.ofRuleSet {} s = .ok q ∧ ∃ b ∈ q.blocks,
        own ∈ b.processors := ⟨_, rfl, _, .tail _ (.head _), .tail _ (.head _)⟩
    rwa [Except.ok.inj (hp.symm.trans hq)]
  obtain ⟨b, hb, hown⟩ := hblocks
  have hwithin : (Json.object members).Within p.toRawJson := by
    refine Pipeline.within_toRawJson hb (PhaseBlock.within_toJson hown ?_)
    exact .member (List.mem_cons_self : ("map", Json.object members) ∈ own.fields) .self
  have hread := (hkept members hwithin).2
  exact ⟨h, p, hp, hwithin, by simpa [members, unquoteEmpty, emptySentinel] using hread⟩

end EventRules

import EventRules.Proofs.RuleSet.Accepted
import EventRules.Proofs.Schema.Conformance
import EventRules.Proofs.Text.Blank

/-! The document of an accepted ruleset, whether its rules have groups or not: the blocks of the
rules, each phase as often as rules have it, between the two outer blocks. It conforms to the schema
when no phase in it is empty, and what rules and rulesets declare is only empty as the sentinel. -/
namespace EventRules

namespace RuleSet

/-- No rule has a group. -/
def Ungrouped (s : RuleSet) : Prop := ∀ r ∈ s.rules, r.group? = none

theorem Ungrouped.not_allGrouped {s : RuleSet} (h : s.Ungrouped) (hrules : s.rules ≠ []) :
    ¬ s.AllGrouped := by
  obtain ⟨r, rest, hcons⟩ := List.exists_cons_of_ne_nil hrules
  have hr : r ∈ s.rules := hcons ▸ List.mem_cons_self
  intro hall
  simpa [h r hr] using hall r hr

end RuleSet

namespace Rule.Arranged

variable {r other : Rule} (h : r.Arranged other)
include h

theorem phase?_eq : r.phase? = other.phase? := by
  obtain ⟨uid, actions, rfl, -⟩ := h
  rfl

theorem entry?_eq : r.entry? = other.entry? := by
  obtain ⟨uid, actions, rfl, -⟩ := h
  rfl

theorem publish?_eq : r.publish? = other.publish? := by
  obtain ⟨uid, actions, rfl, -⟩ := h
  rfl

end Rule.Arranged

namespace Pipeline

variable {phases : Phases} {notify : Option String} {first : String} {blocks : List PhaseBlock}
  {s : RuleSet} {p : Pipeline}

/-- Blocks between the two outer ones, of which the first one runs the given phase. -/
def surrounded (phases : Phases) (notify : Option String) (first : String)
    (blocks : List PhaseBlock) : Pipeline :=
  ⟨entryBlock phases notify first :: blocks ++ [publishBlock phases]⟩

theorem names_surrounded : (surrounded phases notify first blocks).names =
    phases.entry :: (blocks.map PhaseBlock.phase ++ [phases.run]) := by
  simp [names, surrounded, entryBlock, publishBlock]

theorem length_surrounded : 2 ≤ (surrounded phases notify first blocks).blocks.length := by
  simp [surrounded]

theorem mem_surrounded {b : PhaseBlock} : b ∈ (surrounded phases notify first blocks).blocks ↔
    b = entryBlock phases notify first ∨ b ∈ blocks ∨ b = publishBlock phases := by
  simp [surrounded]

@[simp] theorem jumps_publishBlock : (publishBlock phases).jumps = [phases.publish] := rfl

/-- Without groups, the blocks of the rules stand in the order of the rules, and the first block
runs the run phase. -/
theorem ofRuleSet_eq_ok_of_ungrouped (h : s.Ungrouped) : ofRuleSet phases s = .ok p ↔
    ∃ blocks, Rule.blocks phases s.rules = .ok blocks ∧
      p = surrounded phases s.notify? phases.run blocks := by
  have hnone : ¬ s.rules.any (fun r => r.group?.isSome) = true := by
    simpa [RuleSet.Ungrouped] using h
  rw [ofRuleSet, ruleBlocks, if_neg hnone]
  cases Rule.blocks phases s.rules with
  | error fault => simp [Except.map]
  | ok blocks => simp [Except.map, surrounded, eq_comm]

/-- What stands between the outer blocks of a ruleset, and the phase that the first block runs. -/
structure Inner (phases : Phases) (s : RuleSet) (first : String) (blocks : List PhaseBlock) :
    Prop where
  perm : (blocks.map PhaseBlock.phase).Perm (s.rules.map (Rule.phaseOr phases.run))
  jumps : s.AllGrouped ∧ first = ((blocks.head?).map PhaseBlock.phase).getD phases.run ∧
      Linked [] blocks phases.run ∨
    s.Ungrouped ∧ first = phases.run ∧ ∀ b ∈ blocks, b.jumps = []

end Pipeline

namespace RuleSet

variable {catalog : Option Catalog} {configured phases : Phases} {s imported ordered : RuleSet}

/-- What is declared is not empty when no rule declares the empty text. -/
theorem declared_ne_empty {own : Option String} {f : Rule → Option String}
    (hf : ∀ r name, f r = some name → name ≠ "") {name : String}
    (h : s.declared own f = some name) : name ≠ "" := by
  rcases Option.or_eq_some_iff.mp h with hown | ⟨-, hrule⟩
  · exact Text.nonBlank_ne_empty hown
  · obtain ⟨r, -, hr⟩ := List.exists_of_findSome?_eq_some hrule
    exact hf r name hr

theorem entry?_ne_empty {name : String} (h : s.entry? = some name) : name ≠ "" :=
  declared_ne_empty (fun _ _ => Text.nonBlank_ne_empty) h

namespace Accepted

variable (h : Accepted catalog phases s imported ordered)
include h

theorem exists_imported {r : Rule} (hr : r ∈ s.rules) :
    ∃ other ∈ imported.rules, r.Arranged other :=
  exists_of_forall₂ h.arranged.flip hr

/-- Importing changes nothing that is read off each rule alike. -/
theorem map_imported {α : Type} {f : Rule → α}
    (hf : ∀ {r other : Rule}, r.Arranged other → f r = f other) :
    imported.rules.map f = s.rules.map f := by
  rw [← List.forall₂_eq_eq_eq, List.forall₂_map_left_iff, List.forall₂_map_right_iff]
  exact h.arranged.flip.imp fun other r harranged => (hf harranged).symm

theorem declared_imported {own : Option String} {f : Rule → Option String}
    (hf : ∀ {r other : Rule}, r.Arranged other → f r = f other) :
    imported.declared own f = s.declared own f := by
  have hrules (t : RuleSet) : t.rules.findSome? f = (t.rules.map f).findSome? id := by
    rw [List.findSome?_map, Function.id_comp]
  rw [declared, declared, hrules, hrules, h.map_imported hf]

/-- The phases may be taken from the ruleset as it was submitted. -/
theorem effectivePhases_eq (configured : Phases) :
    imported.effectivePhases configured = s.effectivePhases configured := by
  have hentry : imported.entry? = s.entry? := by
    unfold entry?
    rw [h.declared_imported Rule.Arranged.entry?_eq, h.computed.1]
  have hpublish : imported.publish? = s.publish? := by
    rw [publish?, h.declared_imported Rule.Arranged.publish?_eq, publish?, h.computed.1]
  rw [effectivePhases, effectivePhases, hentry, hpublish]

theorem ungrouped (hs : s.Ungrouped) : ordered.Ungrouped := by
  intro other hother
  obtain ⟨r, hr, harranged⟩ :=
    exists_of_forall₂ h.arranged ((mem_rules_of_resolveRules h.resolves).mp hother)
  rw [← harranged.group?_eq]
  exact hs r hr

theorem rules_ne_nil : s.rules ≠ [] := by
  obtain ⟨hproblems, -, -⟩ := imported_eq_ok.mp h.imports
  intro hnil
  have hempty : s.entries = [] := List.map_eq_nil_iff.mp hnil
  simp [check, hempty, Check.report, Check.problems] at hproblems

theorem allGrouped_or_ungrouped : s.AllGrouped ∨ s.Ungrouped := by
  rcases (accepts_checkGroups.mp (grouped_eq_ok.mp h.groups).1).1 with hnone | hall
  · refine .inr fun r hr => ?_
    obtain ⟨other, hother, harranged⟩ := h.exists_imported hr
    rw [harranged.group?_eq]
    simpa using List.filter_eq_nil_iff.mp hnone other hother
  · refine .inl fun r hr => ?_
    obtain ⟨other, hother, harranged⟩ := h.exists_imported hr
    rw [harranged.group?_eq]
    rw [size, ← List.length_map (f := Prod.snd) ] at hall
    exact List.length_filter_eq_length_iff.mp hall other hother

/-- The phase that a rule declares is neither of the outer ones. -/
theorem phase?_ne {r : Rule} (hr : r ∈ s.rules) {q : String} (hq : r.phase? = some q) :
    q ≠ phases.entry ∧ q ≠ phases.publish := by
  obtain ⟨hentry, hpublish, -⟩ := prepared_eq_ok.mp h.prepares
  obtain ⟨other, hother, harranged⟩ := h.exists_imported hr
  have hmem : q ∈ imported.rulePhases :=
    List.mem_filterMap.mpr ⟨other, hother, harranged.phase?_eq ▸ hq⟩
  exact ⟨ne_of_mem_of_not_mem hmem hentry, ne_of_mem_of_not_mem hmem hpublish⟩

theorem rules_perm : (ordered.rules.map (Rule.phaseOr phases.run)).Perm
    (s.rules.map (Rule.phaseOr phases.run)) := by
  rw [← h.map_imported fun harranged => harranged.phaseOr_eq phases.run]
  exact ((entries_perm_of_resolveRules h.resolves).map Prod.snd).map _

/-- The document of an accepted ruleset. -/
theorem exists_inner : ∃ first blocks,
    Pipeline.ofRuleSet phases ordered =
      .ok (Pipeline.surrounded phases ordered.notify? first blocks) ∧
    Pipeline.Inner phases s first blocks := by
  rcases h.allGrouped_or_ungrouped with hs | hs
  · obtain ⟨blocks, hp, hemits, hlinked, -⟩ := h.exists_document hs
    have hperm : (s.groupIds.flatMap fun g => (ordered.ofGroup g).rules).Perm ordered.rules := by
      rw [List.flatMap_def, ← h.groupIds_eq hs, ← (h.allGrouped hs).collectBy]
      exact collectBy_flatten_perm Rule.group? ordered.rules
    refine ⟨_, blocks, hp, ?_, .inl ⟨hs, rfl, hlinked⟩⟩
    rw [Pipeline.map_phase_of_emits hemits]
    exact (hperm.map _).trans h.rules_perm
  · have hordered : ordered.Ungrouped := h.ungrouped hs
    obtain ⟨blocks, hblocks⟩ := Rule.exists_blocks_iff.mpr h.exists_block
    have hrules := Rule.blocks_eq_ok.mp hblocks
    refine ⟨_, blocks, (Pipeline.ofRuleSet_eq_ok_of_ungrouped hordered).mpr ⟨blocks, hblocks, rfl⟩,
      ?_, .inr ⟨hs, rfl, fun b hb => ?_⟩⟩
    · have hemits := hrules.imp fun r b hb => (⟨b, hb, .inl rfl⟩ : Pipeline.Emits phases r b)
      rw [Pipeline.map_phase_of_emits hemits]
      exact h.rules_perm
    · obtain ⟨r, -, hb⟩ := exists_of_forall₂ hrules hb
      exact Rule.jumps_of_block hb

end Accepted

end RuleSet

/-- What a compiled document is made of. No phase in it is empty, since it conforms. -/
theorem Compile.exists_inner {configured : Phases} {catalog : Option Catalog} {s : RuleSet}
    {json : Json} (h : (Compile.ruleSet configured catalog s).1 = .ok json) :
    ∃ imported ordered first blocks p,
      RuleSet.Accepted catalog (s.effectivePhases configured) s imported ordered ∧
      Pipeline.Inner (s.effectivePhases configured) s first blocks ∧
      p = Pipeline.surrounded (s.effectivePhases configured) ordered.notify? first blocks ∧
      p.Named ∧ json = p.toJson := by
  obtain ⟨imported, ordered, haccepted, hdocument⟩ := Compile.ruleSet_eq_ok.mp h
  obtain ⟨p, hp, hconforms, rfl⟩ := RuleSet.document_eq_ok.mp hdocument
  obtain ⟨first, blocks, hsurrounded, hinner⟩ := haccepted.exists_inner
  obtain rfl := Except.ok.inj (hsurrounded.symm.trans hp)
  have hnamed := Pipeline.named_of_conforms Pipeline.length_surrounded hconforms
  rw [haccepted.effectivePhases_eq] at haccepted hinner hnamed
  rw [haccepted.effectivePhases_eq]
  exact ⟨imported, ordered, first, blocks, _, haccepted, hinner, rfl, hnamed, rfl⟩

end EventRules

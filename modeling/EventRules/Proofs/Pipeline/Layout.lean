import EventRules.Proofs.RuleSet.Document

/-! The layout of a document, whether all rules have groups, some or none: a block for each rule
between the two outer ones. Jumps aside, each of these blocks is the one that its rule has alone. -/
namespace EventRules

namespace PhaseBlock

/-- The block without the processors that run phases. -/
def withoutJumps (b : PhaseBlock) : PhaseBlock :=
  { b with processors := b.processors.filter fun p => p.jump?.isNone }

theorem withoutJumps_of_jumps {b : PhaseBlock} (h : b.jumps = []) : b.withoutJumps = b := by
  have hnone : ∀ p ∈ b.processors, p.jump?.isNone := by
    simpa [jumps] using h
  rw [withoutJumps, List.filter_eq_self.mpr hnone]

theorem withoutJumps_jumpingTo (phase : String) (b : PhaseBlock) :
    (b.jumpingTo phase).withoutJumps = b.withoutJumps := by
  simp [withoutJumps, jumpingTo, Processor.jump?]

end PhaseBlock

namespace RuleSet

variable {s : RuleSet}

/-- The rules bucketed by group, the groups in the order in which they first appear. The rules
without a group have a bucket like those of a group. -/
def byGroup (s : RuleSet) : List Rule :=
  (distinct (s.rules.map Rule.group?)).flatMap fun group =>
    s.rules.filter fun r => r.group? == group

theorem flatten_collectBy (s : RuleSet) : (collectBy Rule.group? s.rules).flatten = s.byGroup := by
  rw [byGroup, List.flatMap_def, collectBy_eq]

theorem byGroup_perm (s : RuleSet) : s.byGroup.Perm s.rules :=
  s.flatten_collectBy ▸ collectBy_flatten_perm Rule.group? s.rules

theorem Ungrouped.byGroup_eq (h : s.Ungrouped) : s.byGroup = s.rules := by
  have hgroups : s.rules.map Rule.group? = List.replicate s.rules.length none :=
    List.map_eq_replicate_iff.mpr h
  have hbucket : s.rules.filter (fun r => r.group? == none) = s.rules :=
    List.filter_eq_self.mpr fun r hr => by simp [h r hr]
  rw [byGroup, hgroups]
  cases hlength : s.rules.length with
  | zero => rw [List.length_eq_zero_iff.mp hlength]; rfl
  | succ n => rw [distinct_replicate, List.flatMap_singleton, hbucket]

end RuleSet

namespace Pipeline

variable {phases : Phases} {s : RuleSet} {p : Pipeline}

/-- Jumps aside, the block that stands for a rule is the one that the rule has alone. -/
theorem Emits.block_eq {r : Rule} {b : PhaseBlock} (h : Emits phases r b) :
    r.block phases = .ok b.withoutJumps := by
  obtain ⟨own, hown, hb⟩ := h
  have hself := PhaseBlock.withoutJumps_of_jumps (Rule.jumps_of_block hown)
  rcases hb with rfl | ⟨phase, rfl⟩
  · rw [hown, hself]
  · rw [hown, PhaseBlock.withoutJumps_jumpingTo, hself]

/-- As soon as one rule has a group, the rules are bucketed and the blocks of the buckets linked. -/
theorem ofRuleSet_eq_ok_of_grouped (h : ¬ s.Ungrouped) : ofRuleSet phases s = .ok p ↔
    ∃ blocks, chain phases [] (collectBy Rule.group? s.rules) = .ok blocks ∧
      p = surrounded phases s.notify? (nextPhase phases (collectBy Rule.group? s.rules))
        blocks := by
  have hsome : s.rules.any (fun r => r.group?.isSome) = true := by
    simpa [RuleSet.Ungrouped, Option.ne_none_iff_isSome] using h
  rw [ofRuleSet, ruleBlocks, if_pos hsome]
  cases hc : chain phases [] (collectBy Rule.group? s.rules) with
  | error fault => simp [hc, Except.map]
  | ok blocks => simp [hc, Except.map, surrounded, nextPhase, eq_comm]

/-- Between the outer blocks stand those of the rules, bucketed by group. -/
theorem exists_layout (h : ofRuleSet phases s = .ok p) : ∃ first between,
    p = surrounded phases s.notify? first between ∧
      List.Forall₂ (Emits phases) s.byGroup between := by
  by_cases hs : s.Ungrouped
  · obtain ⟨between, hbetween, rfl⟩ := (ofRuleSet_eq_ok_of_ungrouped hs).mp h
    refine ⟨_, between, rfl, ?_⟩
    rw [hs.byGroup_eq]
    exact (Rule.blocks_eq_ok.mp hbetween).imp fun r b hb => ⟨b, hb, .inl rfl⟩
  · obtain ⟨between, hbetween, rfl⟩ := (ofRuleSet_eq_ok_of_grouped hs).mp h
    exact ⟨_, between, rfl, s.flatten_collectBy ▸ chain_emits hbetween⟩

/-- There is a document exactly when each rule has a block. -/
theorem exists_ofRuleSet : (∃ p, ofRuleSet phases s = .ok p) ↔
    ∀ r ∈ s.rules, ∃ b, r.block phases = .ok b := by
  constructor
  · rintro ⟨p, hp⟩ r hr
    obtain ⟨first, between, -, hemits⟩ := exists_layout hp
    obtain ⟨b, -, own, hown, -⟩ :=
      exists_of_forall₂ hemits.flip (s.byGroup_perm.mem_iff.mpr hr)
    exact ⟨own, hown⟩
  · intro hall
    by_cases hs : s.Ungrouped
    · obtain ⟨between, hbetween⟩ := Rule.exists_blocks_iff.mpr hall
      exact ⟨_, (ofRuleSet_eq_ok_of_ungrouped hs).mpr ⟨between, hbetween, rfl⟩⟩
    · have hbuckets : ∀ group ∈ collectBy Rule.group? s.rules, ∀ r ∈ group,
          ∃ b, r.block phases = .ok b :=
        fun group hgroup r hr => hall r (mem_of_mem_collectBy Rule.group? hgroup hr)
      have hchain : ∃ blocks, chain phases [] (collectBy Rule.group? s.rules) = .ok blocks :=
        exists_chain_iff.mpr hbuckets
      obtain ⟨between, hbetween⟩ := hchain
      exact ⟨_, (ofRuleSet_eq_ok_of_grouped hs).mpr ⟨between, hbetween, rfl⟩⟩

end Pipeline

/-- A ruleset has a document exactly when each of its rules has a block alone. The document then
has two blocks more than the ruleset has rules. Those between its first and its last are, when the
processors that run phases are taken out, the blocks that the rules have alone, each once: in the
order of the rules if no rule has a group, and otherwise bucketed by group. -/
theorem layout_exact (phases : Phases) (s : RuleSet) :
    ((∃ p, Pipeline.ofRuleSet phases s = .ok p) ↔ ∀ r ∈ s.rules, ∃ b, r.block phases = .ok b) ∧
    s.byGroup.Perm s.rules ∧ (s.Ungrouped → s.byGroup = s.rules) ∧
    ∀ p, Pipeline.ofRuleSet phases s = .ok p → p.blocks.length = s.size + 2 ∧
      ∃ first between,
        p.blocks = Pipeline.entryBlock phases s.notify? first :: between ++
          [Pipeline.publishBlock phases] ∧
        List.Forall₂ (fun r b => r.block phases = .ok b.withoutJumps) s.byGroup between := by
  refine ⟨Pipeline.exists_ofRuleSet, s.byGroup_perm, fun h => h.byGroup_eq, fun p hp => ?_⟩
  obtain ⟨first, between, rfl, hemits⟩ := Pipeline.exists_layout hp
  refine ⟨?_, first, between, rfl, hemits.imp fun _ _ h => h.block_eq⟩
  have hlength : between.length = s.size := by
    rw [← hemits.length_eq, s.byGroup_perm.length_eq, RuleSet.rules, List.length_map, RuleSet.size]
  simp [Pipeline.surrounded, hlength]

theorem layout_exact_mixed :
    let rule := fun (uid : String) (group : Option String) =>
      ({ uid, groupId := group, actions := [.copy "A" "1"] } : Rule)
    let s : RuleSet := { entries := [("t", rule "t" none), ("u", rule "u" (some "g")),
      ("v", rule "v" (some "h")), ("w", rule "w" (some " ")), ("x", rule "x" (some " g "))] }
    s.byGroup.map Rule.uid = ["t", "w", "u", "x", "v"] ∧
    ∃ p, Pipeline.ofRuleSet {} s = .ok p ∧ p.blocks.length = 7 ∧ ∃ first between,
      p.blocks = Pipeline.entryBlock {} none first :: between ++ [Pipeline.publishBlock {}] ∧
      List.Forall₂ (fun r b => r.block {} = .ok b.withoutJumps) s.byGroup between := by
  intro rule s
  obtain ⟨hexists, -, -, hlayout⟩ := layout_exact {} s
  have hblocks : s.rules.Forall fun r => ∃ b, r.block {} = .ok b :=
    ⟨⟨_, rfl⟩, ⟨_, rfl⟩, ⟨_, rfl⟩, ⟨_, rfl⟩, _, rfl⟩
  obtain ⟨p, hp⟩ := hexists.mpr (List.forall_iff_forall_mem.mp hblocks)
  obtain ⟨hlength, hbetween⟩ := hlayout p hp
  exact ⟨by decide +kernel, p, hp, hlength, hbetween⟩

end EventRules

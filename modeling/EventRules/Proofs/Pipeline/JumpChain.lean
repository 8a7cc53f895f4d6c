import EventRules.Proofs.Pipeline.Reach
import EventRules.Proofs.RuleSet.Document

/-! The jumps of a document, from its first block to its last. Where every rule has a group and a
phase and the rules of a group share their phase, the document runs the phases of the groups one
after another, each once, then the run phase if no group has it, and in the end the publish phase.
The jump to a phase closes the block before the first block that carries it. -/
namespace EventRules

namespace RuleSet

/-- Every rule has a group and a phase, and no group has several phases. -/
structure Phased (s : RuleSet) : Prop where
  grouped : s.AllGrouped
  phased : ∀ r ∈ s.rules, r.phase?.isSome
  one : ∀ g ∈ s.groupIds, (s.phasesOfGroup g).length ≤ 1

/-- The phases of the groups, in the order in which the groups first appear. -/
def phasesOfGroups (s : RuleSet) : List String := s.groupIds.flatMap s.phasesOfGroup

namespace Phased

variable {s : RuleSet}

/-- This is what the checks before translation require of rules with groups. -/
theorem of_accepts (hs : s.AllGrouped) (hgroups : s.checkGroups.accepts)
    (hrules : ∀ r ∈ s.rules, r.check.accepts) : s.Phased where
  grouped := hs
  phased := by
    intro r hr
    obtain ⟨hphase, -⟩ := Rule.accepts_check.mp (hrules r hr)
    rcases (Bool.or_eq_true _ _).mp hphase with hnone | hsome
    · rw [Option.isNone_iff_eq_none] at hnone
      exact absurd (hs r hr) (by simp [hnone])
    · exact hsome
  one := fun g hg => (accepts_checkGroups.mp hgroups).2 g (mem_distinct.mp hg)

variable (h : s.Phased)
include h

/-- The phase of a rule is the only one that its group has. -/
theorem phasesOfGroup_eq {r : Rule} (hr : r ∈ s.rules) {g : String} (hg : r.group? = some g)
    (run : String) : s.phasesOfGroup g = [r.phaseOr run] := by
  obtain ⟨q, hq⟩ := Option.isSome_iff_exists.mp (h.phased r hr)
  have hmem : q ∈ s.phasesOfGroup g := by
    refine mem_distinct.mpr (List.mem_filterMap.mpr ⟨r, ?_, hq⟩)
    exact List.mem_filter.mpr ⟨hr, by simp [hg]⟩
  have hone := h.one g (mem_distinct.mpr (List.mem_filterMap.mpr ⟨r, hr, hg⟩))
  obtain ⟨q', hq'⟩ := List.length_eq_one_iff.mp (hone.antisymm (List.length_pos_of_mem hmem))
  rw [hq', List.mem_singleton] at hmem
  rw [hq', Rule.phaseOr, hq, Option.getD_some, hmem]

theorem inPhases (run : String) : s.InPhases run fun g => (s.phasesOfGroup g).headD run := by
  intro r hr g hg
  dsimp only
  rw [h.phasesOfGroup_eq hr hg run, List.headD_cons]

/-- The phases of the rules, group by group, are those of the groups with repetitions. -/
theorem distinct_phases (run : String) :
    distinct ((s.groupIds.flatMap fun g => (s.ofGroup g).rules).map (Rule.phaseOr run)) =
      distinct s.phasesOfGroups := by
  rw [List.map_flatMap, phasesOfGroups]
  refine distinct_flatMap_congr fun g _ => ?_
  rw [phasesOfGroup, distinct_distinct, ← rules_ofGroup, ← List.filterMap_eq_map]
  congr 1
  refine List.filterMap_congr fun r hr => ?_
  rw [rules_ofGroup] at hr
  obtain ⟨q, hq⟩ := Option.isSome_iff_exists.mp (h.phased r (List.mem_of_mem_filter hr))
  simp [Rule.phaseOr, hq]

end Phased

end RuleSet

/-- The block runs at most one phase, and if it does, it runs it in the end. -/
def PhaseBlock.JumpsLast (b : PhaseBlock) : Prop :=
  ∀ q ∈ b.jumps, b.jumps = [q] ∧ b.processors.getLast? = some (.runPhase q)

namespace Pipeline

variable {p : Pipeline} {phases : Phases} {notify : Option String} {first last : String}
  {entered : List String} {blocks : List PhaseBlock}

/-- The phases that a document runs, block after block. -/
def jumps (p : Pipeline) : List String := p.blocks.flatMap PhaseBlock.jumps

theorem jumpsLast_entryBlock : (entryBlock phases notify first).JumpsLast := by
  intro q hq
  rw [jumps_entryBlock, List.mem_singleton] at hq
  subst hq
  exact ⟨jumps_entryBlock notify q, List.getLast?_concat⟩

theorem Emits.jumpsLast {r : Rule} {b : PhaseBlock} (h : Emits phases r b) : b.JumpsLast := by
  obtain ⟨own, hown, hb⟩ := h
  have hnone := Rule.jumps_of_block hown
  intro q hq
  rcases hb with rfl | ⟨phase, rfl⟩
  · simp [hnone] at hq
  · rw [PhaseBlock.jumpingTo_jumps, hnone, List.nil_append] at hq ⊢
    obtain rfl := List.mem_singleton.mp hq
    exact ⟨rfl, List.getLast?_concat⟩

/-- Linked blocks run the phases that come after them for the first time. Together with the phase
of the first block, unless that was entered before, these are all that were not entered. -/
theorem Linked.flatMap_jumps (h : Linked entered blocks last) :
    let next := ((blocks.head?).map PhaseBlock.phase).getD last
    (if next ∈ entered then [] else [next]) ++ blocks.flatMap PhaseBlock.jumps =
      (distinct (blocks.map PhaseBlock.phase ++ [last])).filter (· ∉ entered) := by
  induction blocks generalizing entered with
  | nil => by_cases hlast : last ∈ entered <;> simp [distinct, hlast]
  | cons b rest ih =>
    obtain ⟨hjumps, hrest⟩ := h
    -- behind the block its own phase is entered too
    have hothers : (distinct (rest.map PhaseBlock.phase ++ [last])).filter
        (· ∉ enter entered b.phase) =
          ((distinct (rest.map PhaseBlock.phase ++ [last])).filter fun q => !(q == b.phase)).filter
            (· ∉ entered) := by
      rw [List.filter_filter]
      refine List.filter_congr fun q _ => ?_
      simp [mem_enter, beq_eq_decide]
    rw [List.flatMap_cons, hjumps, ih hrest, hothers, List.map_cons, List.cons_append, distinct]
    by_cases hb : b.phase ∈ entered <;> simp [hb]

section Enclosed

variable (hl : Linked [] blocks phases.run)
include hl

/-- Linked blocks between the outer ones run every phase that comes after the first block. -/
theorem jumps_enclosed : (enclosed phases notify blocks).jumps =
    distinct (blocks.map PhaseBlock.phase ++ [phases.run]) ++ [phases.publish] := by
  have hinner := hl.flatMap_jumps
  simp only [List.not_mem_nil, if_false, not_false_eq_true, decide_true, List.filter_true] at hinner
  rw [← hinner, jumps, enclosed]
  simp

/-- A block before the last one runs no other phase than that of the next block, and only if the
next block is the first one after the entry block that carries it. -/
theorem jump_enclosed {rules : List Rule} (hemits : List.Forall₂ (Emits phases) rules blocks)
    {i : ℕ} {b : PhaseBlock} {q : String} (hb : (enclosed phases notify blocks).blocks[i]? = some b)
    (hq : q ∈ b.jumps) (hi : i ≤ blocks.length) :
    (b.jumps = [q] ∧ b.processors.getLast? = some (.runPhase q)) ∧
      (enclosed phases notify blocks).names[i + 1]? = some q ∧
      q ∉ (enclosed phases notify blocks).names.tail.take i := by
  constructor
  · refine (?_ : b.JumpsLast) q hq
    cases i with
    | zero =>
      obtain rfl := Option.some.inj hb
      exact jumpsLast_entryBlock
    | succ i =>
      have hb' : blocks[i]? = some b := by
        rwa [enclosed, List.cons_append, List.getElem?_cons_succ, List.getElem?_append_left hi]
          at hb
      obtain ⟨r, -, hr⟩ := exists_of_forall₂ hemits (List.mem_of_getElem? hb')
      exact hr.jumpsLast
  · have hat : q ∈ (enclosed phases notify blocks).jumpsAt i := by
      rwa [jumpsAt, hb]
    rw [mem_jumpsAt_enclosed hl hi, mem_and_idxOf_eq_iff] at hat
    rwa [names_enclosed, List.getElem?_cons_succ, List.tail_cons]

end Enclosed

end Pipeline

/-- The documents of groups with one phase each. -/
theorem RuleSet.Phased.exists_enclosed {s : RuleSet} (h : s.Phased) {phases : Phases} {p : Pipeline}
    (hp : Pipeline.ofRuleSet phases s = .ok p) : ∃ blocks,
      p = Pipeline.enclosed phases s.notify? blocks ∧
      List.Forall₂ (Pipeline.Emits phases) (s.groupIds.flatMap fun g => (s.ofGroup g).rules)
        blocks ∧ Pipeline.Linked [] blocks phases.run := by
  have hone := (h.inPhases phases.run).onePhaseEach h.grouped
  obtain ⟨blocks, hblocks, rfl⟩ := (Pipeline.ofRuleSet_eq_ok h.grouped).mp hp
  have hemits := Pipeline.chain_emits hblocks
  rw [h.grouped.collectBy, ← List.flatMap_def] at hemits
  refine ⟨blocks, ?_, hemits, Pipeline.chain_linked hone hblocks⟩
  rw [Pipeline.nextPhase_eq hone hblocks, Pipeline.enclosed]

/-- Groups with one phase each have a document exactly when each rule has a block. The document runs
the distinct phases of the groups in the order in which the groups first appear, then the run phase
unless a group has it, and then the publish phase. The last of these jumps is alone in the last
block. Every other one comes last in the block before the first block after the entry block that
carries the phase. -/
theorem jump_chain_exact {s : RuleSet} (h : s.Phased) (phases : Phases) :
    ((∃ p, Pipeline.ofRuleSet phases s = .ok p) ↔ ∀ r ∈ s.rules, ∃ b, r.block phases = .ok b) ∧
    ∀ p, Pipeline.ofRuleSet phases s = .ok p →
      p.jumps = distinct s.phasesOfGroups ++
        (if phases.run ∈ s.phasesOfGroups then [] else [phases.run]) ++ [phases.publish] ∧
      p.blocks.getLast? = some (Pipeline.publishBlock phases) ∧
      ∀ i b q, p.blocks[i]? = some b → q ∈ b.jumps → i + 1 < p.blocks.length →
        (b.jumps = [q] ∧ b.processors.getLast? = some (.runPhase q)) ∧
          p.names[i + 1]? = some q ∧ q ∉ p.names.tail.take i := by
  refine ⟨Pipeline.exists_ofRuleSet_iff h.grouped, fun p hp => ?_⟩
  obtain ⟨blocks, rfl, hemits, hl⟩ := h.exists_enclosed hp
  have hphases := h.distinct_phases phases.run
  rw [← Pipeline.map_phase_of_emits hemits] at hphases
  have hrun : phases.run ∈ blocks.map PhaseBlock.phase ↔ phases.run ∈ s.phasesOfGroups := by
    rw [← mem_distinct, hphases, mem_distinct]
  refine ⟨?_, ?_, fun i b q hb hq hi => ?_⟩
  · rw [Pipeline.jumps_enclosed hl, distinct_concat, hphases]
    simp only [hrun]
  · rw [Pipeline.enclosed, List.getLast?_concat]
  · rw [Pipeline.length_enclosed] at hi
    exact Pipeline.jump_enclosed hl hemits hb hq (by omega)

/-- Two groups share a phase, another one has the run phase, and a group is scattered. -/
theorem jump_chain_exact_shared :
    let rule := fun group phase : String =>
      ({ groupId := some group, phaseName := some phase, actions := [.copy "A" "1"] } : Rule)
    let s : RuleSet := { entries := [("u", rule "g" "p"), ("v", rule "h" "phase_1"),
      ("w", rule "g" "p"), ("x", rule "i" "q"), ("y", rule "j" "p")] }
    s.Phased ∧ ∃ p, Pipeline.ofRuleSet {} s = .ok p ∧
      p.jumps = ["p", "phase_1", "q", "map_publish"] ∧
      p.blocks.getLast? = some (Pipeline.publishBlock {}) ∧
      ∀ i b q, p.blocks[i]? = some b → q ∈ b.jumps → i + 1 < p.blocks.length →
        (b.jumps = [q] ∧ b.processors.getLast? = some (.runPhase q)) ∧
          p.names[i + 1]? = some q ∧ q ∉ p.names.tail.take i := by
  intro rule s
  have h : s.Phased := ⟨by decide, by decide +kernel, by decide +kernel⟩
  obtain ⟨hexists, hall⟩ := jump_chain_exact h {}
  have hblocks : s.rules.Forall fun r => ∃ b, r.block {} = .ok b :=
    ⟨⟨_, rfl⟩, ⟨_, rfl⟩, ⟨_, rfl⟩, ⟨_, rfl⟩, _, rfl⟩
  obtain ⟨p, hp⟩ := hexists.mpr (List.forall_iff_forall_mem.mp hblocks)
  obtain ⟨hjumps, hlast, hplaces⟩ := hall p hp
  have hphases : distinct s.phasesOfGroups ++
      (if "phase_1" ∈ s.phasesOfGroups then [] else ["phase_1"]) ++ ["map_publish"] =
        ["p", "phase_1", "q", "map_publish"] := by
    decide +kernel
  exact ⟨h, p, hp, hjumps.trans hphases, hlast, hplaces⟩

end EventRules

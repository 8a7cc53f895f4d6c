import EventRules.Pipeline.Basic
import EventRules.Proofs.Processor.Parts
import Mathlib.Data.List.Basic
import Mathlib.Data.List.Forall2

/-! The blocks of grouped rules: one for each rule, group by group, and the phases to which they
jump. A block jumps to the phase of the next one when that phase comes for the first time, and to no
other phase. -/
namespace EventRules

theorem exists_of_forall₂ {α β : Type} {R : α → β → Prop} {as : List α} {bs : List β}
    (h : List.Forall₂ R as bs) {b : β} (hb : b ∈ bs) : ∃ a ∈ as, R a b := by
  induction h with
  | nil => simp at hb
  | cons hfirst _ ih =>
    rcases List.mem_cons.mp hb with rfl | hb
    · exact ⟨_, List.mem_cons_self, hfirst⟩
    · obtain ⟨a, ha, hab⟩ := ih hb
      exact ⟨a, List.mem_cons_of_mem _ ha, hab⟩

/-- The phase that a processor runs. -/
def Processor.jump? : Processor → Option String
  | .runPhase phase => some phase
  | _ => none

namespace PhaseBlock

/-- The phases that a block runs, in the order of its processors. -/
def jumps (b : PhaseBlock) : List String := b.processors.filterMap Processor.jump?

variable (phase : String) (b : PhaseBlock)

@[simp] theorem jumpingTo_phase : (b.jumpingTo phase).phase = b.phase := rfl

@[simp] theorem jumpingTo_jumps : (b.jumpingTo phase).jumps = b.jumps ++ [phase] := by
  simp [jumps, jumpingTo, Processor.jump?]

end PhaseBlock

namespace Action

theorem jump?_of_processor {a : Action} {p : Processor} (h : a.processor = .ok p) :
    p.jump? = none := by
  cases heffect : a.effect with
  | copy source =>
    cases hp : source.pattern? <;>
      · simp only [processor, heffect, hp, Except.ok.injEq] at h
        subst h
        rfl
  | searchTopology search =>
    rw [processor, heffect] at h
    obtain ⟨filter, rfl⟩ := search.exists_filter_of_processor h
    rfl
  | _ =>
    simp only [processor, heffect, Except.ok.injEq] at h
    subst h
    rfl

theorem jumps_closeRun (run : Option (List (String × String))) :
    (closeRun run).filterMap Processor.jump? = [] := by
  cases run <;> rfl

theorem jumps_of_processorsAfter {run : Option (List (String × String))} {actions : List Action}
    {ps : List Processor} (h : processorsAfter run actions = .ok ps) :
    ps.filterMap Processor.jump? = [] := by
  induction actions generalizing run ps with
  | nil =>
    simp only [processorsAfter, Except.ok.injEq] at h
    exact h ▸ jumps_closeRun run
  | cons a rest ih =>
    cases ha : a.assignment? with
    | some assignment =>
      simp only [processorsAfter, ha] at h
      exact ih h
    | none =>
      cases hp : a.processor with
      | error fault => simp [processorsAfter, ha, hp] at h
      | ok own =>
        cases hrest : processorsAfter none rest with
        | error fault => simp [processorsAfter, ha, hp, hrest, Except.map] at h
        | ok others =>
          simp only [processorsAfter, ha, hp, hrest, Except.map, Except.ok.injEq] at h
          subst h
          simp [jumps_closeRun, jump?_of_processor hp, ih hrest]

end Action

namespace Rule

variable {phases : Phases} {r : Rule} {b : PhaseBlock}

theorem block_eq_ok : r.block phases = .ok b ↔ ∃ filter processors, r.filter? = .ok filter ∧
    Action.processors r.actions = .ok processors ∧
      b = { phase := r.phaseOr phases.run, filter, processors } := by
  cases hf : r.filter? with
  | error fault => simp [block, hf]
  | ok filter =>
    cases hp : Action.processors r.actions with
    | error fault => simp [block, hf, hp, Except.map]
    | ok processors => simp [block, hf, hp, Except.map, eq_comm]

theorem phase_of_block (h : r.block phases = .ok b) : b.phase = r.phaseOr phases.run := by
  obtain ⟨filter, processors, -, -, rfl⟩ := block_eq_ok.mp h
  rfl

theorem jumps_of_block (h : r.block phases = .ok b) : b.jumps = [] := by
  obtain ⟨filter, processors, -, hp, rfl⟩ := block_eq_ok.mp h
  exact Action.jumps_of_processorsAfter hp

theorem blocks_eq_ok {rules : List Rule} {blocks : List PhaseBlock} :
    Rule.blocks phases rules = .ok blocks ↔
      List.Forall₂ (fun r b => r.block phases = .ok b) rules blocks := by
  induction rules generalizing blocks with
  | nil => simp [Rule.blocks, eq_comm]
  | cons r rest ih =>
    rw [List.forall₂_cons_left_iff]
    cases hb : r.block phases with
    | error fault => simp [Rule.blocks, hb]
    | ok first =>
      cases hrest : Rule.blocks phases rest with
      | error fault => simp [Rule.blocks, hb, hrest, Except.map, ← ih]
      | ok others =>
        simp only [Rule.blocks, hb, hrest, Except.map, Except.ok.injEq, ← ih]
        constructor
        · rintro rfl
          exact ⟨first, others, rfl, rfl, rfl⟩
        · rintro ⟨b, bs, rfl, rfl, rfl⟩
          rfl

theorem exists_blocks_iff {rules : List Rule} :
    (∃ blocks, Rule.blocks phases rules = .ok blocks) ↔
      ∀ r ∈ rules, ∃ b, r.block phases = .ok b := by
  simp only [blocks_eq_ok]
  induction rules with
  | nil => simp
  | cons r rest ih =>
    simp only [List.forall₂_cons_left_iff, List.forall_mem_cons, ← ih]
    constructor
    · rintro ⟨_, b, blocks, hb, hblocks, rfl⟩
      exact ⟨⟨b, hb⟩, blocks, hblocks⟩
    · rintro ⟨⟨b, hb⟩, blocks, hblocks⟩
      exact ⟨_, b, blocks, hb, hblocks, rfl⟩

end Rule

theorem changeLast_self {α : Type} (items : List α) : changeLast (fun a => a) items = items := by
  induction items with
  | nil => rfl
  | cons a rest ih =>
    cases rest with
    | nil => rfl
    | cons b rest =>
      rw [changeLast, ih]
      simp

namespace Pipeline

/-- The block is that of the rule, perhaps with a jump at its end. -/
def Emits (phases : Phases) (r : Rule) (b : PhaseBlock) : Prop :=
  ∃ own, r.block phases = .ok own ∧ (b = own ∨ ∃ phase, b = own.jumpingTo phase)

/-- After the phases entered before, each block jumps to the phase of the next block if that phase
comes for the first time, and runs no other phase. The name is that of the phase after the last
block. -/
def Linked (entered : List String) : List PhaseBlock → String → Prop
  | [], _ => True
  | b :: rest, last =>
    let entered := enter entered b.phase
    let next := ((rest.head?).map PhaseBlock.phase).getD last
    b.jumps = (if next ∈ entered then [] else [next]) ∧ Linked entered rest last

variable {phases : Phases} {entered : List String} {groups : List (List Rule)}
  {blocks : List PhaseBlock}

theorem mem_enter {phase other : String} :
    other ∈ enter entered phase ↔ other ∈ entered ∨ other = phase := by
  rw [enter]
  split
  next h =>
    have : phase ∈ entered := by simpa using h
    grind
  next h => simp

@[simp] theorem enter_enter (entered : List String) (phase : String) :
    enter (enter entered phase) phase = enter entered phase := by
  have h : (enter entered phase).contains phase = true := by
    simpa using mem_enter.mpr (.inr rfl)
  rw [enter, if_pos h]

/-- The last block of a group, with the jump to the next phase if that was not entered yet. -/
def closing (entered : List String) (next : String) (b : PhaseBlock) : PhaseBlock :=
  if entered.contains next then b else b.jumpingTo next

@[simp] theorem closing_phase (next : String) (b : PhaseBlock) :
    (closing entered next b).phase = b.phase := by
  rw [closing]
  split <;> rfl

theorem closing_jumps {next : String} {b : PhaseBlock} (h : b.jumps = []) :
    (closing entered next b).jumps = if next ∈ entered then [] else [next] := by
  by_cases hn : next ∈ entered <;> simp [closing, hn, h]

/-- The phase that comes after a group. -/
def nextPhase (phases : Phases) (rest : List (List Rule)) : String :=
  ((rest.head?).map (groupPhase phases)).getD phases.run

theorem chain_cons_eq_ok {group : List Rule} {rest : List (List Rule)} :
    chain phases entered (group :: rest) = .ok blocks ↔
      ∃ own others, Rule.blocks phases group = .ok own ∧
        chain phases (enter entered (groupPhase phases group)) rest = .ok others ∧
        blocks = changeLast (closing (enter entered (groupPhase phases group))
          (nextPhase phases rest)) own ++ others := by
  have hclosing (own : List PhaseBlock) (entered : List String) (next : String) :
      (if entered.contains next then own else changeLast (·.jumpingTo next) own) =
        changeLast (closing entered next) own := by
    split
    next hn =>
      have heq : closing entered next = fun b => b := funext fun b => if_pos hn
      rw [heq, changeLast_self]
    next hn =>
      have heq : closing entered next = (·.jumpingTo next) := funext fun b => if_neg hn
      rw [heq]
  cases hown : Rule.blocks phases group with
  | error fault => simp [chain, hown]
  | ok own =>
    cases hrest : chain phases (enter entered (groupPhase phases group)) rest with
    | error fault => simp [chain, hown, hrest, Except.map]
    | ok others =>
      simp only [chain, hown, hrest, Except.map, Except.ok.injEq, hclosing]
      constructor
      · rintro rfl
        exact ⟨own, others, rfl, rfl, rfl⟩
      · rintro ⟨_, _, rfl, rfl, rfl⟩
        rfl

theorem emits_changeLast {group : List Rule} {own : List PhaseBlock} (next : String)
    (h : List.Forall₂ (fun r b => r.block phases = .ok b) group own) :
    List.Forall₂ (Emits phases) group (changeLast (closing entered next) own) := by
  induction h with
  | nil => exact .nil
  | cons hb hrest ih =>
    cases hrest with
    | nil =>
      refine .cons ⟨_, hb, ?_⟩ .nil
      by_cases hn : entered.contains next = true
      · exact .inl (if_pos hn)
      · exact .inr ⟨next, if_neg hn⟩
    | cons hb' hrest' => exact .cons ⟨_, hb, .inl rfl⟩ ih

/-- The blocks of groups are those of their rules, in order. -/
theorem chain_emits (h : chain phases entered groups = .ok blocks) :
    List.Forall₂ (Emits phases) groups.flatten blocks := by
  induction groups generalizing entered blocks with
  | nil =>
    simp only [chain, Except.ok.injEq] at h
    exact h ▸ .nil
  | cons group rest ih =>
    obtain ⟨own, others, hown, hrest, rfl⟩ := chain_cons_eq_ok.mp h
    exact List.rel_append (emits_changeLast _ (Rule.blocks_eq_ok.mp hown)) (ih hrest)

theorem exists_chain_iff : (∃ blocks, chain phases entered groups = .ok blocks) ↔
    ∀ group ∈ groups, ∀ r ∈ group, ∃ b, r.block phases = .ok b := by
  induction groups generalizing entered with
  | nil => simp [chain]
  | cons group rest ih =>
    rw [List.forall_mem_cons, ← ih, ← Rule.exists_blocks_iff]
    simp only [chain_cons_eq_ok]
    constructor
    · rintro ⟨_, own, others, hown, hothers, -⟩
      exact ⟨⟨own, hown⟩, others, hothers⟩
    · rintro ⟨⟨own, hown⟩, others, hothers⟩
      exact ⟨_, own, others, hown, hothers, rfl⟩

/-- The rules of each group run in one phase. -/
def OnePhaseEach (phases : Phases) (groups : List (List Rule)) : Prop :=
  ∀ group ∈ groups, group ≠ [] ∧ ∀ r ∈ group, r.phaseOr phases.run = groupPhase phases group

/-- The blocks of a group go before linked blocks when the last one is closed. -/
theorem Linked.append {own others : List PhaseBlock} {phase last : String}
    (hown : own ≠ []) (hphase : ∀ b ∈ own, b.phase = phase ∧ b.jumps = [])
    (hothers : Linked (enter entered phase) others last) :
    Linked entered (changeLast (closing (enter entered phase)
      (((others.head?).map PhaseBlock.phase).getD last)) own ++ others) last := by
  induction own generalizing entered with
  | nil => exact absurd rfl hown
  | cons b rest ih =>
    obtain ⟨hb, hjumps⟩ := hphase b (by simp)
    cases rest with
    | nil =>
      simp only [changeLast, List.singleton_append, Linked, closing_phase, hb]
      exact ⟨closing_jumps hjumps, hothers⟩
    | cons c rest =>
      have hrest : Linked (enter entered phase) (changeLast (closing (enter entered phase)
          (((others.head?).map PhaseBlock.phase).getD last)) (c :: rest) ++ others) last := by
        rw [← enter_enter entered phase] at hothers ⊢
        simpa using ih (by simp) (fun d hd => hphase d (by simp [hd])) hothers
      have hhead (change : PhaseBlock → PhaseBlock) (hc : (change c).phase = c.phase) :
          ((changeLast change (c :: rest) ++ others).head?).map PhaseBlock.phase =
            some c.phase := by
        cases rest <;> simp [changeLast, hc]
      rw [changeLast, List.cons_append, Linked, hb, hjumps, hhead _ (closing_phase _ _),
        (hphase c (by simp)).1]
      · exact ⟨by simp [mem_enter], hrest⟩
      · simp

/-- Only the phases of the blocks matter, and the last one. -/
theorem Linked.congr {entered' : List String} {last : String} (h : Linked entered blocks last)
    (heq : ∀ q, q ∈ blocks.map PhaseBlock.phase ∨ q = last → (q ∈ entered ↔ q ∈ entered')) :
    Linked entered' blocks last := by
  induction blocks generalizing entered entered' with
  | nil => trivial
  | cons b rest ih =>
    obtain ⟨hjumps, hrest⟩ := h
    have henter : ∀ q, q ∈ rest.map PhaseBlock.phase ∨ q = last →
        (q ∈ enter entered b.phase ↔ q ∈ enter entered' b.phase) := by
      intro q hq
      rw [mem_enter, mem_enter, heq q (hq.imp_left (List.mem_cons_of_mem _))]
    have hnext : ((rest.head?).map PhaseBlock.phase).getD last ∈ rest.map PhaseBlock.phase ∨
        ((rest.head?).map PhaseBlock.phase).getD last = last := by
      cases rest <;> simp
    refine ⟨?_, ih hrest henter⟩
    rw [hjumps, if_congr (henter _ hnext) rfl rfl]

/-- A block that comes last may jump to a new phase. -/
theorem Linked.concat {b : PhaseBlock} {last : String} (h : Linked entered blocks b.phase)
    (hb : b.jumps = [last]) (hentered : last ∉ entered) (hne : last ≠ b.phase)
    (hlast : last ∉ blocks.map PhaseBlock.phase) : Linked entered (blocks ++ [b]) last := by
  induction blocks generalizing entered with
  | nil =>
    refine ⟨?_, trivial⟩
    simp [hb, mem_enter, hentered, hne]
  | cons c rest ih =>
    obtain ⟨hjumps, hrest⟩ := h
    rw [List.map_cons, List.mem_cons, not_or] at hlast
    refine ⟨?_, ih hrest (by simp [mem_enter, hentered, hlast.1]) hlast.2⟩
    cases rest <;> exact hjumps

theorem Emits.phase_eq {r : Rule} {b : PhaseBlock} (h : Emits phases r b) :
    b.phase = r.phaseOr phases.run := by
  obtain ⟨own, hown, rfl | ⟨phase, rfl⟩⟩ := h
  · exact Rule.phase_of_block hown
  · rw [PhaseBlock.jumpingTo_phase, Rule.phase_of_block hown]

theorem map_phase_of_emits {rules : List Rule} (h : List.Forall₂ (Emits phases) rules blocks) :
    blocks.map PhaseBlock.phase = rules.map (Rule.phaseOr phases.run) := by
  induction h with
  | nil => rfl
  | cons hb _ ih => rw [List.map_cons, List.map_cons, hb.phase_eq, ih]

/-- The first block of some groups is in the phase of the first group. -/
theorem nextPhase_eq (hg : OnePhaseEach phases groups)
    (h : chain phases entered groups = .ok blocks) :
    nextPhase phases groups = ((blocks.head?).map PhaseBlock.phase).getD phases.run := by
  cases groups with
  | nil =>
    simp only [chain, Except.ok.injEq] at h
    subst h
    rfl
  | cons group rest =>
    obtain ⟨hne, hphase⟩ := hg group (by simp)
    obtain ⟨r, rules, rfl⟩ := List.exists_cons_of_ne_nil hne
    have hphases := map_phase_of_emits (chain_emits h)
    rw [← List.head?_map, hphases]
    simp [nextPhase, ← hphase r (by simp)]

/-- The blocks of groups jump where a phase comes for the first time. -/
theorem chain_linked (hg : OnePhaseEach phases groups)
    (h : chain phases entered groups = .ok blocks) : Linked entered blocks phases.run := by
  induction groups generalizing entered blocks with
  | nil =>
    simp only [chain, Except.ok.injEq] at h
    exact h ▸ trivial
  | cons group rest ih =>
    obtain ⟨own, others, hown, hrest, rfl⟩ := chain_cons_eq_ok.mp h
    have hrules := Rule.blocks_eq_ok.mp hown
    obtain ⟨hne, hphase⟩ := hg group (by simp)
    have hg' : OnePhaseEach phases rest := fun g hmem => hg g (by simp [hmem])
    rw [nextPhase_eq hg' hrest]
    refine Linked.append ?_ ?_ (ih hg' hrest)
    · rintro rfl
      exact hne (List.forall₂_nil_right_iff.mp hrules)
    · intro b hb
      obtain ⟨r, hr, hrb⟩ := exists_of_forall₂ hrules hb
      exact ⟨(Rule.phase_of_block hrb).trans (hphase r hr), Rule.jumps_of_block hrb⟩

/-- Blocks between the two outer ones, entered by the phase of the first. -/
def enclosed (phases : Phases) (notify : Option String) (blocks : List PhaseBlock) : Pipeline :=
  ⟨entryBlock phases notify (((blocks.head?).map PhaseBlock.phase).getD phases.run) :: blocks ++
    [publishBlock phases]⟩

@[simp] theorem jumps_entryBlock (notify : Option String) (first : String) :
    (entryBlock phases notify first).jumps = [first] := by
  rw [PhaseBlock.jumps, entryBlock]
  split <;> rfl

end Pipeline

end EventRules

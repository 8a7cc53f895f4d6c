import EventRules.Proofs.Pipeline.Run
import EventRules.Proofs.RuleSet.Accepted
import Mathlib.Logic.Relation

/-! What the jumps of a document reach when filters keep some blocks from being executed. Every
phase is entered from one block only, so there is one way from the first block to the last one, and
a filter that fails on that way cuts off everything behind it. -/
namespace EventRules
open Relation

namespace Pipeline

variable {p : Pipeline} {phases : Phases} {notify : Option String} {blocks : List PhaseBlock}

/-- Outcomes of the filters. That of the first block is true, and a block without one passes. -/
structure Outcomes (p : Pipeline) (passes : ℕ → Bool) : Prop where
  first : passes 0
  unfiltered : ∀ i b, p.blocks[i]? = some b → b.filter = none → passes i

/-- Following the jumps from the first block comes to the block at the place. -/
def Reaches (p : Pipeline) (passes : ℕ → Bool) (place : ℕ) : Prop :=
  ReflTransGen (fun e e' => e' ∈ p.expand passes e) (.block 0) (.block place)

/-- One block runs the phase of another. -/
def Leads (p : Pipeline) (i j : ℕ) : Prop := ∃ q ∈ p.jumpsAt i, p.names[j]? = some q

/-- The blocks of rules that have to be executed, one after another, before a phase is run. -/
inductive WayTo (p : Pipeline) : String → List ℕ → Prop
  | first {q : String} (hq : q ∈ p.jumpsAt 0) : WayTo p q []
  | step {i : ℕ} {q q' : String} {way : List ℕ} (hway : WayTo p q way) (hi : i ∈ p.rulePlaces)
      (hq : p.names[i]? = some q) (hq' : q' ∈ p.jumpsAt i) : WayTo p q' (way ++ [i])

/-- The blocks of rules on the way from the first block to the last one. Each of them runs the phase
of the next, and the last block is reached exactly when they pass their filters. -/
structure OnlyWay (p : Pipeline) (way : List ℕ) : Prop where
  leads : (0 :: way ++ [p.blocks.length - 1]).IsChain p.Leads
  rules : ∀ i ∈ way, i ∈ p.rulePlaces
  reaches_iff : ∀ passes, passes 0 →
    (p.Reaches passes (p.blocks.length - 1) ↔ ∀ i ∈ way, passes i)

/-- The last block is reached for all outcomes exactly when no block on the way has a filter. -/
theorem OnlyWay.forall_reaches_iff {way : List ℕ} (h : OnlyWay p way) :
    (∀ passes, p.Outcomes passes → p.Reaches passes (p.blocks.length - 1)) ↔
      ∀ i ∈ way, ∀ b, p.blocks[i]? = some b → b.filter = none := by
  constructor
  · intro hall i hi b hb
    -- all filters fail but that of the first block
    let passes : ℕ → Bool := fun i => i == 0 || (p.blocks[i]?).any fun b => b.filter.isNone
    have ho : p.Outcomes passes := ⟨rfl, fun i b hb hnone => by simp [passes, hb, hnone]⟩
    have hpass := (h.reaches_iff passes ho.first).mp (hall passes ho) i hi
    have hne : i ≠ 0 := by
      rintro rfl
      have := h.rules 0 hi
      simp [rulePlaces] at this
    simpa [passes, hb, hne] using hpass
  · intro hnone passes ho
    refine (h.reaches_iff passes ho.first).mpr fun i hi => ?_
    have hlt : i < p.blocks.length := by
      have := List.mem_range'_1.mp (h.rules i hi)
      omega
    have hb := List.getElem?_eq_getElem hlt
    exact ho.unfiltered i _ hb (hnone i hi _ hb)

/-- A block on the way runs some phase. -/
theorem OnlyWay.jumpsAt_ne_nil {way : List ℕ} (h : OnlyWay p way) :
    ∀ i ∈ way, p.jumpsAt i ≠ [] := by
  intro i hi
  obtain ⟨before, after, rfl⟩ := List.append_of_mem hi
  have hleads := h.leads
  rw [List.cons_append, List.append_assoc, List.cons_append, ← List.cons_append] at hleads
  have hafter := (List.isChain_append.mp hleads).2.1
  obtain ⟨j, rest, hrest⟩ := List.exists_cons_of_ne_nil
    (List.concat_ne_nil (p.blocks.length - 1) after)
  rw [hrest] at hafter
  obtain ⟨q, hq, -⟩ := (List.isChain_cons_cons.mp hafter).1
  exact List.ne_nil_of_mem hq

/-- The blocks on a way to the phase pass their filters. -/
def Open (p : Pipeline) (passes : ℕ → Bool) (q : String) : Prop :=
  ∃ way, WayTo p q way ∧ ∀ i ∈ way, passes i

theorem WayTo.isChain {q : String} {way : List ℕ} (h : WayTo p q way) {j : ℕ}
    (hj : p.names[j]? = some q) : (0 :: way ++ [j]).IsChain p.Leads := by
  induction h generalizing j with
  | first hq => exact List.isChain_pair.mpr ⟨_, hq, hj⟩
  | @step i q q' way _ _ hi hq' ih =>
    have hleads : p.Leads i j := ⟨q', hq', hj⟩
    rw [List.isChain_append]
    refine ⟨ih hi, List.isChain_singleton j, fun x hx y hy => ?_⟩
    rw [← List.cons_append, List.getLast?_concat] at hx
    cases hx
    cases hy
    exact hleads

theorem WayTo.mem_rulePlaces {q : String} {way : List ℕ} (h : WayTo p q way) :
    ∀ i ∈ way, i ∈ p.rulePlaces := by
  induction h with
  | first _ => simp
  | step _ hi _ _ ih =>
    intro j hj
    rcases List.mem_append.mp hj with hj | hj
    · exact ih j hj
    · exact List.mem_singleton.mp hj ▸ hi

theorem WayTo.reaches {passes : ℕ → Bool} {q : String} {way : List ℕ} (h : WayTo p q way)
    (hfirst : passes 0) (hpass : ∀ i ∈ way, passes i) :
    ReflTransGen (fun e e' => e' ∈ p.expand passes e) (.block 0) (.phase q) := by
  induction h with
  | first hq => exact .single (mem_expand_block.mpr ⟨hfirst, _, hq, rfl⟩)
  | step _ _ hi hq' ih =>
    have hbefore := ih fun j hj => hpass j (List.mem_append_left _ hj)
    have hthere := hbefore.tail (mem_expand_phase.mpr ⟨_, hi, rfl⟩)
    exact hthere.tail (mem_expand_block.mpr ⟨hpass _ (by simp), _, hq', rfl⟩)

section Enclosed

/-- An event after the first block comes only when the way to its phase is open. -/
theorem open_of_reaches {passes : ℕ → Bool}
    (hpublish : phases.publish ∉ blocks.map PhaseBlock.phase) {e : Event}
    (h : ReflTransGen (fun e e' => e' ∈ (enclosed phases notify blocks).expand passes e)
      (.block 0) e) :
    match e with
    | .phase q => q ∈ blocks.map PhaseBlock.phase ++ [phases.run] →
        Open (enclosed phases notify blocks) passes q
    | .block i => 0 < i → ∀ q, (enclosed phases notify blocks).names[i]? = some q →
        Open (enclosed phases notify blocks) passes q := by
  induction h with
  | refl => exact fun h => absurd h (lt_irrefl 0)
  | @tail e e' _ he ih =>
    cases e with
    | phase q =>
      obtain ⟨i, hi, rfl⟩ := mem_expand_phase.mp he
      intro hpos q' hq'
      obtain rfl := Option.some.inj (hi.symm.trans hq')
      have hlt := (List.getElem?_eq_some_iff.mp hi).1
      have hlen : i ≤ blocks.length + 1 := by
        rw [names_enclosed] at hlt
        simp at hlt
        omega
      obtain ⟨r, hr, hir⟩ := getElem?_names_enclosed hpos hlen
      obtain rfl := Option.some.inj (hi.symm.trans hir)
      exact ih hr
    | block i =>
      obtain ⟨hpass, q, hq, rfl⟩ := mem_expand_block.mp he
      intro hmem
      rcases Nat.eq_zero_or_pos i with rfl | hpos
      · exact ⟨[], .first hq, by simp⟩
      rcases lt_trichotomy i (blocks.length + 1) with hlt | rfl | hgt
      · obtain ⟨r, -, hir⟩ := getElem?_names_enclosed hpos hlt.le
        obtain ⟨way, hway, hpasses⟩ := ih hpos r hir
        refine ⟨way ++ [i], .step hway (mem_rulePlaces_enclosed.mpr (by omega)) hir hq, ?_⟩
        exact List.forall_mem_append.mpr ⟨hpasses, by simpa using hpass⟩
      · -- the last block runs the publish phase, which is no other than the run phase here
        rw [jumpsAt_enclosed_last, List.mem_singleton] at hq
        subst hq
        have hrun := (List.mem_append.mp hmem).resolve_left hpublish
        rw [List.mem_singleton] at hrun
        refine ih hpos _ ?_
        rw [names_enclosed, hrun]
        simp
      · rw [jumpsAt_of_le (by simp only [length_enclosed]; omega)] at hq
        simp at hq

variable (hl : Linked [] blocks phases.run)
include hl

/-- The place whose block enters a phase: the one before the first block that carries it. -/
theorem mem_jumpsAt_enclosed {i : ℕ} (hi : i ≤ blocks.length) {q : String} :
    q ∈ (enclosed phases notify blocks).jumpsAt i ↔
      q ∈ blocks.map PhaseBlock.phase ++ [phases.run] ∧
        (blocks.map PhaseBlock.phase ++ [phases.run]).idxOf q = i := by
  cases i with
  | zero =>
    rw [jumpsAt_enclosed_zero, mem_and_idxOf_eq_iff]
    cases blocks <;> simp [eq_comm]
  | succ i =>
    rw [jumpsAt_enclosed_succ hi]
    exact Linked.mem_jumpsAt hl

theorem WayTo.unique {q : String} {way other : List ℕ}
    (h : WayTo (enclosed phases notify blocks) q way)
    (h' : WayTo (enclosed phases notify blocks) q other) : way = other := by
  induction h generalizing other with
  | first hq =>
    cases h' with
    | first _ => rfl
    | step _ hi _ hq' =>
      obtain ⟨hpos, hle⟩ := mem_rulePlaces_enclosed.mp hi
      have hzero := ((mem_jumpsAt_enclosed hl (Nat.zero_le _)).mp hq).2
      have hstep := ((mem_jumpsAt_enclosed hl hle).mp hq').2
      omega
  | step _ hi hq hq' ih =>
    obtain ⟨hpos, hle⟩ := mem_rulePlaces_enclosed.mp hi
    have hidx := ((mem_jumpsAt_enclosed hl hle).mp hq').2
    cases h' with
    | first hzero =>
      have := ((mem_jumpsAt_enclosed hl (Nat.zero_le _)).mp hzero).2
      omega
    | step h' hj hr hr' =>
      have hjdx := ((mem_jumpsAt_enclosed hl (mem_rulePlaces_enclosed.mp hj).2).mp hr').2
      obtain rfl := hidx.symm.trans hjdx
      obtain rfl := Option.some.inj (hq.symm.trans hr)
      rw [ih h']

/-- There is a way to every phase of the rules and to the run phase. -/
theorem exists_wayTo {q : String} (hq : q ∈ blocks.map PhaseBlock.phase ++ [phases.run]) :
    ∃ way, WayTo (enclosed phases notify blocks) q way := by
  induction hk : (blocks.map PhaseBlock.phase ++ [phases.run]).idxOf q using
    Nat.strong_induction_on generalizing q with
  | _ k ih =>
  have hlt := List.idxOf_lt_length_iff.mpr hq
  simp only [List.length_append, List.length_map, List.length_singleton, hk] at hlt
  have hjump : q ∈ (enclosed phases notify blocks).jumpsAt k :=
    (mem_jumpsAt_enclosed hl (by omega)).mpr ⟨hq, hk⟩
  cases k with
  | zero => exact ⟨[], .first hjump⟩
  | succ i =>
    have hi : i < (blocks.map PhaseBlock.phase ++ [phases.run]).length := by simp; omega
    have hat := List.getElem?_eq_getElem hi
    have hle := idxOf_le_of_getElem? hat
    obtain ⟨way, hway⟩ := ih _ (by omega) (List.getElem_mem hi) rfl
    refine ⟨way ++ [i + 1], .step hway (mem_rulePlaces_enclosed.mpr (by omega)) ?_ hjump⟩
    rw [names_enclosed, List.getElem?_cons_succ, hat]

/-- The last block is reached exactly when the blocks on the way to the run phase pass. -/
theorem reaches_last_iff {passes : ℕ → Bool}
    (hpublish : phases.publish ∉ blocks.map PhaseBlock.phase) {way : List ℕ}
    (hway : WayTo (enclosed phases notify blocks) phases.run way) (hfirst : passes 0) :
    Reaches (enclosed phases notify blocks) passes (blocks.length + 1) ↔ ∀ i ∈ way, passes i := by
  have hrun : (enclosed phases notify blocks).names[blocks.length + 1]? = some phases.run := by
    rw [names_enclosed]
    simp
  constructor
  · intro h
    obtain ⟨other, hother, hpass⟩ := open_of_reaches hpublish h (Nat.succ_pos _) _ hrun
    rwa [hway.unique hl hother]
  · exact fun hpass => (hway.reaches hfirst hpass).tail (mem_expand_phase.mpr ⟨_, hrun, rfl⟩)

theorem exists_onlyWay (hpublish : phases.publish ∉ blocks.map PhaseBlock.phase) :
    ∃ way, OnlyWay (enclosed phases notify blocks) way := by
  have hlast : (enclosed phases notify blocks).blocks.length - 1 = blocks.length + 1 := by
    rw [length_enclosed]
    rfl
  obtain ⟨way, hway⟩ := exists_wayTo hl (q := phases.run) (by simp)
  refine ⟨way, ?_, hway.mem_rulePlaces, fun passes hfirst => ?_⟩
  · rw [hlast]
    exact hway.isChain (by rw [names_enclosed]; simp)
  · rw [hlast]
    exact reaches_last_iff hl hpublish hway hfirst

end Enclosed

end Pipeline

theorem RuleSet.Accepted.exists_onlyWay {catalog : Option Catalog} {phases : Phases}
    {s imported ordered : RuleSet} (h : RuleSet.Accepted catalog phases s imported ordered)
    (hs : s.AllGrouped) : ∃ p way, Pipeline.ofRuleSet phases ordered = .ok p ∧
      List.Forall₂ (Pipeline.Emits phases) (s.groupIds.flatMap fun g => (ordered.ofGroup g).rules)
        (pick p.blocks p.rulePlaces) ∧
      p.blocks.getLast? = some (Pipeline.publishBlock phases) ∧ p.OnlyWay way := by
  obtain ⟨blocks, hp, hemits, hl, hnames⟩ := h.exists_document hs
  obtain ⟨way, hway⟩ := Pipeline.exists_onlyWay hl fun hmem => (hnames _ hmem).2 rfl
  refine ⟨_, way, hp, ?_, ?_, hway⟩
  · rw [Pipeline.pick_rulePlaces]
    exact hemits
  · rw [Pipeline.enclosed, List.getLast?_concat]

/-- Compiling grouped rules gives a document with one way from the first block to the last one,
which runs the publish phase. It is reached exactly when all rules on the way pass their filters,
and so it is reached whatever the outcomes exactly when no rule on the way has a filter. -/
theorem publishing_reached_exact {configured : Phases} {catalog : Option Catalog} {s : RuleSet}
    {json : Json} (hs : s.AllGrouped) (h : (Compile.ruleSet configured catalog s).1 = .ok json) :
    ∃ phases imported ordered p way,
      phases = imported.effectivePhases configured ∧
      RuleSet.Accepted catalog phases s imported ordered ∧
      Pipeline.ofRuleSet phases ordered = .ok p ∧ json = p.toJson ∧
      List.Forall₂ (Pipeline.Emits phases) (s.groupIds.flatMap fun g => (ordered.ofGroup g).rules)
        (pick p.blocks p.rulePlaces) ∧
      p.blocks.getLast? = some (Pipeline.publishBlock phases) ∧ p.OnlyWay way ∧
      ((∀ passes, p.Outcomes passes → p.Reaches passes (p.blocks.length - 1)) ↔
        ∀ i ∈ way, ∀ b, p.blocks[i]? = some b → b.filter = none) := by
  obtain ⟨imported, ordered, haccepted, hdocument⟩ := Compile.ruleSet_eq_ok.mp h
  obtain ⟨p, way, hp, hemits, hlast, hway⟩ := haccepted.exists_onlyWay hs
  obtain ⟨p', hp', -, rfl⟩ := RuleSet.document_eq_ok.mp hdocument
  obtain rfl := Except.ok.inj (hp.symm.trans hp')
  exact ⟨_, imported, ordered, p, way, rfl, haccepted, hp, rfl, hemits, hlast, hway,
    hway.forall_reaches_iff⟩

/-- Behind a rule with a filter, one without runs the next phase: the last block is reached. -/
theorem publishing_reached_exact_behind :
    let rule := fun (target : String) (condition : Option Condition) =>
      ({ description := "d", groupId := some "g", phaseName := some "p",
         actions := [.copy target "1"], condition } : Rule)
    let s : RuleSet := { entries :=
      [("u", rule "A" (some (.comparison ⟨{}, "${x}", "equals", ["1"]⟩))), ("v", rule "B" none)] }
    s.AllGrouped ∧ ∃ p : Pipeline, (Compile.ruleSet {} none s).1 = .ok p.toJson ∧
      (∃ b ∈ p.blocks, b.filter.isSome) ∧
        ∀ passes, p.Outcomes passes → p.Reaches passes (p.blocks.length - 1) := by
  intro rule s
  have hs : s.AllGrouped := by decide
  have hcompiled : (Compile.ruleSet {} none s).1.isOk := by decide +kernel
  match hjson : (Compile.ruleSet {} none s).1 with
  | .error fault => simp [hjson, Except.isOk, Except.toBool] at hcompiled
  | .ok json =>
  obtain ⟨_, imported, ordered, p, way, rfl, haccepted, hp, rfl, -, -, hway, hreached⟩ :=
    publishing_reached_exact hs hjson
  obtain ⟨rfl, rfl⟩ := haccepted.computed
  let facts := fun p : Pipeline =>
    (p.rulePlaces, p.jumpsAt 1, p.blocks.map fun b => b.filter.isSome)
  have hfacts : facts p = ([1, 2], [], [false, true, false, false]) := by
    have hmap := congrArg (fun result => result.toOption.map facts) hp
    exact Option.some.inj (hmap.symm.trans (by decide +kernel))
  obtain ⟨hplaces, hjumps, hfilters⟩ := by simpa only [facts, Prod.mk.injEq] using hfacts
  refine ⟨hs, p, rfl, List.mem_map.mp (hfilters ▸ by simp), hreached.mpr fun i hi b hb => ?_⟩
  -- the first rule runs no phase, so it is not on the way
  have hne : i ≠ 1 := fun heq => hway.jumpsAt_ne_nil i hi (heq ▸ hjumps)
  have hmem := hplaces ▸ hway.rules i hi
  obtain rfl : i = 2 := by simpa [hne] using hmem
  have hnone : (p.blocks.map fun b => b.filter.isSome)[2]? = some false := by rw [hfilters]; rfl
  simpa [hb] using hnone

/-- When the only rule of a group has a filter and the filter fails, the last block is not reached:
what runs the run phase is in the block that is skipped. -/
theorem publishing_cut_off :
    let s : RuleSet := { entries := [("u",
      { description := "d", groupId := some "g", phaseName := some "p",
        actions := [.copy "A" "1"],
        condition := some (.comparison ⟨{}, "${x}", "equals", ["1"]⟩) })] }
    s.AllGrouped ∧ ∃ p : Pipeline, (Compile.ruleSet {} none s).1 = .ok p.toJson ∧
      p.blocks.getLast? = some (Pipeline.publishBlock {}) ∧
        ∃ passes, p.Outcomes passes ∧ ¬ p.Reaches passes (p.blocks.length - 1) := by
  intro s
  have hs : s.AllGrouped := by decide
  have hcompiled : (Compile.ruleSet {} none s).1.isOk := by decide +kernel
  match hjson : (Compile.ruleSet {} none s).1 with
  | .error fault => simp [hjson, Except.isOk, Except.toBool] at hcompiled
  | .ok json =>
  obtain ⟨imported, ordered, haccepted, hdocument⟩ := Compile.ruleSet_eq_ok.mp hjson
  obtain ⟨p, way, hp, -, hlast, hway⟩ := haccepted.exists_onlyWay hs
  obtain ⟨p', hp', -, rfl⟩ := RuleSet.document_eq_ok.mp hdocument
  obtain rfl := Except.ok.inj (hp.symm.trans hp')
  obtain ⟨rfl, rfl⟩ := haccepted.computed
  let facts := fun p : Pipeline =>
    (p.rulePlaces, p.names, p.jumpsAt 0, p.blocks.map fun b => b.filter.isSome)
  have hfacts : facts p = ([1], ["snmp_map", "p", "phase_1"], ["p"], [false, true, false]) := by
    have hmap := congrArg (fun result => result.toOption.map facts) hp
    exact Option.some.inj (hmap.symm.trans (by decide +kernel))
  obtain ⟨hplaces, hnames, hjumps, hfilters⟩ := by simpa only [facts, Prod.mk.injEq] using hfacts
  have hphases : RuleSet.effectivePhases {} { s with entries := s.resolveEach.1 } = {} := by
    decide +kernel
  refine ⟨hs, p, rfl, hphases ▸ hlast, ?_⟩
  by_contra! hall
  have hunfiltered := hway.forall_reaches_iff.mp hall
  have hlength : p.blocks.length - 1 = 2 := by
    rw [← Pipeline.length_names, hnames]
    rfl
  have hchain := hway.leads
  rw [hlength] at hchain
  cases way with
  | nil =>
    obtain ⟨q, hq, hat⟩ := List.isChain_pair.mp hchain
    rw [hjumps, List.mem_singleton] at hq
    simp [hnames, hq] at hat
  | cons i rest =>
    have hmem := hplaces ▸ hway.rules i List.mem_cons_self
    obtain rfl := List.mem_singleton.mp hmem
    have hsome : (p.blocks.map fun b => b.filter.isSome)[1]? = some true := by rw [hfilters]; rfl
    rw [List.getElem?_map, Option.map_eq_some_iff] at hsome
    obtain ⟨b, hb, hfilter⟩ := hsome
    simp [hunfiltered 1 List.mem_cons_self b hb] at hfilter

end EventRules

import EventRules.Proofs.RuleSet.Document

/-! Which blocks of a compiled document have the names of the outer phases. The phase of a rule is
the run phase or differs from both names, so it is the run phase alone that can share a name with an
outer one: nothing checks that, though rules that declare no phase and the last block are in it. -/
namespace EventRules

namespace Pipeline

variable {phases : Phases} {notify : Option String} {first : String} {blocks : List PhaseBlock}
  {s : RuleSet}

/-- A block runs the phase of a later block, and that is not its own. -/
theorem Linked.notMem_jumps {entered : List String} {last : String}
    (h : Linked entered blocks last) : ∀ b ∈ blocks, b.phase ∉ b.jumps := by
  induction blocks generalizing entered with
  | nil => simp
  | cons b rest ih =>
    obtain ⟨hjumps, hrest⟩ := h
    refine List.forall_mem_cons.mpr ⟨fun hmem => ?_, ih hrest⟩
    rw [hjumps] at hmem
    split at hmem
    next => simp at hmem
    next hnew => exact hnew (List.mem_singleton.mp hmem ▸ mem_enter.mpr (.inr rfl))

/-- The phases of the rules are the run phase and names that differ from the outer ones. -/
def RulesApart (phases : Phases) (s : RuleSet) : Prop :=
  ∀ r ∈ s.rules, r.phaseOr phases.run = phases.run ∨
    r.phaseOr phases.run ≠ phases.entry ∧ r.phaseOr phases.run ≠ phases.publish

namespace Inner

variable (h : Inner phases s first blocks)
include h

theorem mem_phases {q : String} : q ∈ blocks.map PhaseBlock.phase ↔
    ∃ r ∈ s.rules, r.phaseOr phases.run = q := by
  rw [h.perm.mem_iff, List.mem_map]

theorem notMem_jumps {b : PhaseBlock} (hb : b ∈ blocks) : b.phase ∉ b.jumps := by
  obtain ⟨-, -, hlinked⟩ | ⟨-, -, hnone⟩ := h.jumps
  · exact hlinked.notMem_jumps b hb
  · simp [hnone b hb]

/-- The phase of a block is the run phase when rules are in no other phase of that name. -/
theorem eq_run_of_mem {q : String} (hq : q ∈ blocks.map PhaseBlock.phase)
    (hs : ∀ r ∈ s.rules, r.phaseOr phases.run = phases.run ∨ r.phaseOr phases.run ≠ q) :
    q = phases.run := by
  obtain ⟨r, hr, hphase⟩ := h.mem_phases.mp hq
  rcases hs r hr with hrun | hne
  · exact hphase.symm.trans hrun
  · exact absurd hphase hne

theorem entry_mem_phases (hs : RulesApart phases s)
    (hentry : phases.entry ∈ blocks.map PhaseBlock.phase) : phases.entry = phases.run :=
  h.eq_run_of_mem hentry fun r hr => (hs r hr).imp_right And.left

theorem publish_mem_phases (hs : RulesApart phases s)
    (hpublish : phases.publish ∈ blocks.map PhaseBlock.phase) : phases.publish = phases.run :=
  h.eq_run_of_mem hpublish fun r hr => (hs r hr).imp_right And.right

theorem entry_first_iff (hs : RulesApart phases s) :
    (∀ i, (surrounded phases notify first blocks).names[i]? = some phases.entry ↔ i = 0) ↔
      phases.entry ≠ phases.run := by
  simp only [names_surrounded]
  constructor
  · intro hfirst hrun
    -- the last block is in the run phase
    have hlast := (hfirst (blocks.length + 1)).mp (by simp [hrun])
    omega
  · intro hne i
    cases i with
    | zero => simp
    | succ i =>
      refine iff_of_false (fun hi => ?_) i.succ_ne_zero
      rcases List.mem_append.mp (List.mem_of_getElem? hi) with hmem | hmem
      · exact hne (h.entry_mem_phases hs hmem)
      · exact hne (List.mem_singleton.mp hmem)

theorem publish_absent_iff (hs : RulesApart phases s) :
    phases.publish ∉ (surrounded phases notify first blocks).names ↔
      phases.publish ≠ phases.run ∧ phases.publish ≠ phases.entry := by
  simp only [names_surrounded, List.mem_cons, List.mem_append, List.mem_nil_iff, or_false, not_or]
  constructor
  · rintro ⟨hentry, -, hrun⟩
    exact ⟨hrun, hentry⟩
  · rintro ⟨hrun, hentry⟩
    exact ⟨hentry, fun hmem => hrun (h.publish_mem_phases hs hmem), hrun⟩

theorem blocks_ne_nil (hrules : s.rules ≠ []) : blocks ≠ [] := by
  rintro rfl
  exact hrules (List.map_eq_nil_iff.mp h.perm.nil_eq.symm)

/-- The first block runs its own phase only where that is the run phase and there are no groups. -/
theorem first_eq_entry_iff (hrules : s.rules ≠ [])
    (hs : s.AllGrouped → ∀ r ∈ s.rules, r.phaseOr phases.run ≠ phases.entry) :
    first = phases.entry ↔ phases.entry = phases.run ∧ ¬ s.AllGrouped := by
  obtain ⟨hgrouped, hfirst, -⟩ | ⟨hungrouped, hfirst, -⟩ := h.jumps
  · refine iff_of_false (fun heq => ?_) fun hand => hand.2 hgrouped
    obtain ⟨b, rest, rfl⟩ := List.exists_cons_of_ne_nil (h.blocks_ne_nil hrules)
    obtain ⟨r, hr, hphase⟩ := h.mem_phases.mp (List.mem_cons_self (a := b.phase))
    exact hs hgrouped r hr (hphase.trans (hfirst.symm.trans heq))
  · rw [hfirst, eq_comm, and_iff_left (hungrouped.not_allGrouped hrules)]

/-- Of the blocks it is only the outer ones that can run their own phases. -/
theorem runs_none_own_iff (hrules : s.rules ≠ [])
    (hs : s.AllGrouped → ∀ r ∈ s.rules, r.phaseOr phases.run ≠ phases.entry) :
    (∀ b ∈ (surrounded phases notify first blocks).blocks, b.phase ∉ b.jumps) ↔
      phases.publish ≠ phases.run ∧ (phases.entry ≠ phases.run ∨ s.AllGrouped) := by
  have hentry : (entryBlock phases notify first).phase ∉ (entryBlock phases notify first).jumps ↔
      phases.entry ≠ phases.run ∨ s.AllGrouped := by
    rw [jumps_entryBlock, List.mem_singleton, eq_comm]
    exact (h.first_eq_entry_iff hrules hs).not.trans (by rw [not_and_not_right, imp_iff_not_or])
  have hpublish : (publishBlock phases).phase ∉ (publishBlock phases).jumps ↔
      phases.publish ≠ phases.run := by
    rw [jumps_publishBlock, List.mem_singleton, eq_comm]
    rfl
  rw [← hentry, ← hpublish]
  simp only [mem_surrounded]
  constructor
  · exact fun hall => ⟨hall _ (.inr (.inr rfl)), hall _ (.inl rfl)⟩
  · rintro ⟨hlast, hfirst⟩ b (rfl | hb | rfl)
    · exact hfirst
    · exact h.notMem_jumps hb
    · exact hlast

end Inner

end Pipeline

namespace RuleSet.Accepted

variable {catalog : Option Catalog} {phases : Phases} {s imported ordered : RuleSet}
  (h : Accepted catalog phases s imported ordered)
include h

theorem rulesApart : Pipeline.RulesApart phases s := by
  intro r hr
  rw [Rule.phaseOr]
  cases hq : r.phase? with
  | none => exact .inl rfl
  | some q => exact .inr (h.phase?_ne hr hq)

theorem phaseOr_ne_entry (hs : s.AllGrouped) :
    ∀ r ∈ s.rules, r.phaseOr phases.run ≠ phases.entry := by
  intro r hr
  obtain ⟨other, hother, heq⟩ :=
    List.mem_map.mp (h.rules_perm.mem_iff.mpr (List.mem_map_of_mem hr))
  rw [← heq]
  exact (h.phaseOr_ne hs hother).1

end RuleSet.Accepted

/-- In a compiled document, the first block alone carries the name of the entry phase exactly when
that is not the name of the run phase. No block carries the name of the publish phase exactly when
that is neither the name of the run phase nor that of the entry phase. And no block runs the phase
that it carries exactly when the publish phase is not the run phase and, unless there are groups,
nor is the entry phase. -/
theorem outer_phases_exact {configured : Phases} {catalog : Option Catalog} {s : RuleSet}
    {json : Json} (h : (Compile.ruleSet configured catalog s).1 = .ok json) :
    let phases := s.effectivePhases configured
    ((∀ i, json.phaseAt? i = some phases.entry ↔ i = 0) ↔ phases.entry ≠ phases.run) ∧
    ((∀ i, json.phaseAt? i ≠ some phases.publish) ↔
      phases.publish ≠ phases.run ∧ phases.publish ≠ phases.entry) ∧
    ((∀ q, ¬ json.Enters q q) ↔
      phases.publish ≠ phases.run ∧ (phases.entry ≠ phases.run ∨ s.AllGrouped)) := by
  intro phases
  obtain ⟨imported, ordered, first, blocks, p, haccepted, hinner, hp, hnamed, rfl⟩ :=
    Compile.exists_inner h
  have hapart := haccepted.rulesApart
  simp only [hnamed.phaseAt?_toJson, hnamed.enters_self_iff]
  subst hp
  refine ⟨hinner.entry_first_iff hapart, ?_, ?_⟩
  · rw [← hinner.publish_absent_iff hapart, List.mem_iff_getElem?, not_exists]
  · rw [← hinner.runs_none_own_iff haccepted.rules_ne_nil haccepted.phaseOr_ne_entry]
    constructor
    · exact fun hnone b hb hmem => hnone b.phase ⟨b, hb, rfl, hmem⟩
    · rintro hnone q ⟨b, hb, rfl, hmem⟩
      exact hnone b hb hmem

/-- The names are apart where the entry phase is declared, and a rule is in a phase of its own. -/
theorem outer_phases_exact_declared :
    let rule := fun (phaseName : Option String) =>
      ({ description := "d", phaseName, actions := [.copy "A" "1"] } : Rule)
    let s : RuleSet := { entryPhase := some "start", entries :=
      [("u", rule (some "p")), ("v", rule none)] }
    ∃ json, (Compile.ruleSet {} none s).1 = .ok json ∧
      (∀ i, json.phaseAt? i = some "start" ↔ i = 0) ∧
      (∀ i, json.phaseAt? i ≠ some "map_publish") ∧ ∀ q, ¬ json.Enters q q := by
  intro rule s
  have hcompiled : (Compile.ruleSet {} none s).1.isOk := by decide +kernel
  match hjson : (Compile.ruleSet {} none s).1 with
  | .error fault => simp [hjson, Except.isOk, Except.toBool] at hcompiled
  | .ok json =>
  obtain ⟨hentry, hpublish, hown⟩ := outer_phases_exact hjson
  exact ⟨json, rfl, hentry.mpr (by decide), hpublish.mpr (by decide), hown.mpr (by decide)⟩

/-- The publish phase may be declared with the name of the run phase. Then a rule that declares no
phase is in it, and the last block runs itself. -/
theorem publishing_runs_itself :
    let s : RuleSet := { publishPhase := some "phase_1", entries :=
      [("u", { description := "d", actions := [.copy "A" "1"] })] }
    (s.effectivePhases {}).publish = "phase_1" ∧
      ∃ json, (Compile.ruleSet {} none s).1 = .ok json ∧
        json.phaseAt? 1 = some "phase_1" ∧ json.Enters "phase_1" "phase_1" := by
  intro s
  have hread : (Compile.ruleSet {} none s).1.toOption.map Json.outline = some
      [(some "snmp_map", ["phase_1"]), (some "phase_1", []), (some "phase_1", ["phase_1"])] := by
    decide +kernel
  obtain ⟨json, hjson, houtline⟩ := Json.exists_of_outline hread
  refine ⟨by decide, json, hjson, ?_, ?_⟩
  · rw [Json.phaseAt?_eq_outline, houtline]
    rfl
  · rw [Json.enters_iff_outline, houtline]
    exact ⟨(some "phase_1", ["phase_1"]), by simp⟩

end EventRules

import EventRules.Proofs.Pipeline.OuterPhases
import EventRules.Proofs.Pipeline.Reach

/-! Which phases of a compiled document can be entered from its first block. The blocks of groups
are linked, and there is a way to all of them. Without groups the blocks of the rules run nothing,
and the first block runs the run phase: no rule in another phase is ever entered. -/
namespace EventRules
open Relation

namespace Pipeline

variable {p : Pipeline} {phases : Phases} {notify : Option String} {first : String}
  {blocks : List PhaseBlock} {s : RuleSet} {q : String}

theorem Named.enters_of_jump (h : p.Named) {i : ℕ} {q' : String} (hq : p.names[i]? = some q)
    (hjump : q' ∈ p.jumpsAt i) (hcarried : q' ∈ p.names) : p.toJson.Enters q q' := by
  cases hb : p.blocks[i]? with
  | none => simp [jumpsAt, hb] at hjump
  | some b =>
    have hphase : b.phase = q := by simpa [names, hb] using hq
    have hmem : q' ∈ b.jumps := by simpa [jumpsAt, hb] using hjump
    exact h.enters_toJson.mpr ⟨b, List.mem_of_getElem? hb, hphase, q', hmem,
      unquoteEmpty_of_ne (h q' hcarried).2⟩

/-- The blocks on a way to a phase lead to it in the document. -/
theorem WayTo.reachable (h : p.Named) {entry : String} (hentry : p.names[0]? = some entry)
    {way : List ℕ} (hway : WayTo p q way) (hcarried : q ∈ p.names) :
    ReflTransGen p.toJson.Enters entry q := by
  induction hway with
  | first hjump => exact .single (h.enters_of_jump hentry hjump hcarried)
  | step _ _ hat hjump ih =>
    exact (ih (List.mem_of_getElem? hat)).tail (h.enters_of_jump hat hjump hcarried)

/-- All phases of linked blocks are reached. -/
theorem Named.reachable_enclosed (h : (enclosed phases notify blocks).Named)
    (hl : Linked [] blocks phases.run) (hq : q ∈ (enclosed phases notify blocks).names) :
    ReflTransGen (enclosed phases notify blocks).toJson.Enters phases.entry q := by
  have hmem := hq
  rw [names_enclosed] at hmem
  rcases List.mem_cons.mp hmem with rfl | hmem
  · exact .refl
  · obtain ⟨way, hway⟩ : ∃ way, WayTo (enclosed phases notify blocks) q way := exists_wayTo hl hmem
    exact hway.reachable h (by rw [names_enclosed]; rfl) hq

/-- Of blocks that run nothing only those in the run phase are reached. -/
theorem Named.reachable_surrounded_iff (h : (surrounded phases notify phases.run blocks).Named)
    (hnone : ∀ b ∈ blocks, b.jumps = [])
    (hpublish : phases.publish ∈ blocks.map PhaseBlock.phase → phases.publish = phases.run)
    (hq : q ∈ (surrounded phases notify phases.run blocks).names) :
    ReflTransGen (surrounded phases notify phases.run blocks).toJson.Enters phases.entry q ↔
      q = phases.entry ∨ q = phases.run := by
  constructor
  · intro hreach
    rcases hreach.cases_tail with rfl | ⟨other, -, henters⟩
    · exact .inl rfl
    obtain ⟨b, hb, -, target, hjump, htarget⟩ := h.enters_toJson.mp henters
    obtain rfl := (unquoteEmpty_eq_iff (h q hq)).mp htarget
    rcases mem_surrounded.mp hb with rfl | hb | rfl
    · rw [jumps_entryBlock, List.mem_singleton] at hjump
      exact .inr hjump
    · simp [hnone b hb] at hjump
    · -- the publish phase is only carried where it shares its name with an outer phase
      rw [jumps_publishBlock, List.mem_singleton] at hjump
      subst hjump
      simp only [names_surrounded, List.mem_cons, List.mem_append, List.mem_nil_iff,
        or_false] at hq
      exact hq.imp_right fun hmem => hmem.elim hpublish id
  · have hrun : phases.run ∈ (surrounded phases notify phases.run blocks).names := by
      simp [names_surrounded]
    rintro (rfl | rfl)
    · exact .refl
    · refine .single (h.enters_toJson.mpr ⟨_, mem_surrounded.mpr (.inl rfl), rfl, phases.run, ?_⟩)
      rw [jumps_entryBlock]
      exact ⟨List.mem_singleton_self _, unquoteEmpty_of_ne (h _ hrun).2⟩

/-- Whether a phase of the document is reached depends on whether there are groups. -/
theorem Inner.reachable_iff (h : Inner phases s first blocks) (hrules : s.rules ≠ [])
    (hs : RulesApart phases s) (hnamed : (surrounded phases notify first blocks).Named)
    (hq : q ∈ (surrounded phases notify first blocks).names) :
    ReflTransGen (surrounded phases notify first blocks).toJson.Enters phases.entry q ↔
      s.AllGrouped ∨ q = phases.entry ∨ q = phases.run := by
  have hpublish := h.publish_mem_phases hs
  obtain ⟨hgrouped, rfl, hlinked⟩ | ⟨hungrouped, rfl, hnone⟩ := h.jumps
  · exact iff_of_true (hnamed.reachable_enclosed hlinked hq) (.inl hgrouped)
  · rw [hnamed.reachable_surrounded_iff hnone hpublish hq,
      or_iff_right (hungrouped.not_allGrouped hrules)]

/-- Blocks carry no phases but the entry phase and the run phase when all rules are in the
latter. -/
theorem Inner.carried_iff (h : Inner phases s first blocks) (hs : RulesApart phases s) :
    (∀ q ∈ (surrounded phases notify first blocks).names, q = phases.entry ∨ q = phases.run) ↔
      ∀ r ∈ s.rules, r.phaseOr phases.run = phases.run := by
  rw [names_surrounded, List.forall_mem_cons, List.forall_mem_append, List.forall_mem_singleton,
    and_iff_right (.inl rfl), and_iff_left (.inr rfl)]
  constructor
  · intro hall r hr
    rcases hall _ (h.mem_phases.mpr ⟨r, hr, rfl⟩) with hentry | hrun
    · exact (hs r hr).resolve_right fun hne => hne.1 hentry
    · exact hrun
  · intro hall q hq
    obtain ⟨r, hr, rfl⟩ := h.mem_phases.mp hq
    exact .inr (hall r hr)

end Pipeline

/-- A phase that some block of a compiled document carries is reached from the entry phase exactly
when the rules have groups or it is the entry phase or the run phase. So all of them are reached
exactly when the rules have groups or are all in the run phase. -/
theorem phase_reached_exact {configured : Phases} {catalog : Option Catalog} {s : RuleSet}
    {json : Json} (h : (Compile.ruleSet configured catalog s).1 = .ok json) :
    let phases := s.effectivePhases configured
    (∀ i q, json.phaseAt? i = some q → (ReflTransGen json.Enters phases.entry q ↔
      s.AllGrouped ∨ q = phases.entry ∨ q = phases.run)) ∧
    ((∀ i q, json.phaseAt? i = some q → ReflTransGen json.Enters phases.entry q) ↔
      s.AllGrouped ∨ ∀ r ∈ s.rules, r.phaseOr phases.run = phases.run) := by
  intro phases
  obtain ⟨imported, ordered, first, blocks, p, haccepted, hinner, hp, hnamed, rfl⟩ :=
    Compile.exists_inner h
  have hapart := haccepted.rulesApart
  have hreached : ∀ q ∈ p.names, (ReflTransGen p.toJson.Enters phases.entry q ↔
      s.AllGrouped ∨ q = phases.entry ∨ q = phases.run) := by
    subst hp
    exact fun q hq => hinner.reachable_iff haccepted.rules_ne_nil hapart hnamed hq
  have hcarried : (∀ q ∈ p.names, q = phases.entry ∨ q = phases.run) ↔
      ∀ r ∈ s.rules, r.phaseOr phases.run = phases.run := by
    subst hp
    exact hinner.carried_iff hapart
  simp only [hnamed.phaseAt?_toJson]
  refine ⟨fun i q hi => hreached q (List.mem_of_getElem? hi), ?_⟩
  calc (∀ i q, p.names[i]? = some q → ReflTransGen p.toJson.Enters phases.entry q)
      ↔ ∀ q ∈ p.names, ReflTransGen p.toJson.Enters phases.entry q := by
        simp only [List.mem_iff_getElem?, forall_exists_index]
        exact forall_comm
    _ ↔ ∀ q ∈ p.names, s.AllGrouped ∨ q = phases.entry ∨ q = phases.run :=
        forall₂_congr hreached
    _ ↔ s.AllGrouped ∨ ∀ q ∈ p.names, q = phases.entry ∨ q = phases.run := by
        simp only [forall_or_left]
    _ ↔ s.AllGrouped ∨ ∀ r ∈ s.rules, r.phaseOr phases.run = phases.run :=
        or_congr_right hcarried

/-- The phase of a group is reached from the first block, and the run phase from there. -/
theorem phase_reached_exact_grouped :
    let rule := fun (target : String) =>
      ({ description := "d", groupId := some "g", phaseName := some "p",
         actions := [.copy target "1"] } : Rule)
    let s : RuleSet := { entries := [("u", rule "A"), ("v", rule "B")] }
    ∃ json, (Compile.ruleSet {} none s).1 = .ok json ∧
      json.phaseAt? 2 = some "p" ∧ json.phaseAt? 3 = some "phase_1" ∧
      ∀ i q, json.phaseAt? i = some q → ReflTransGen json.Enters "snmp_map" q := by
  intro rule s
  have hread : (Compile.ruleSet {} none s).1.toOption.map Json.outline = some
      [(some "snmp_map", ["p"]), (some "p", []), (some "p", ["phase_1"]),
        (some "phase_1", ["map_publish"])] := by decide +kernel
  obtain ⟨json, hjson, houtline⟩ := Json.exists_of_outline hread
  refine ⟨json, hjson, ?_, ?_, (phase_reached_exact hjson).2.mpr (.inl (by decide))⟩
  · rw [Json.phaseAt?_eq_outline, houtline]
    rfl
  · rw [Json.phaseAt?_eq_outline, houtline]
    rfl

/-- Without groups the block of a rule with a phase of its own is not reached. -/
theorem phase_not_reached :
    let s : RuleSet := { entries :=
      [("u", { description := "d", phaseName := some "p", actions := [.copy "A" "1"] })] }
    (s.effectivePhases {}).entry = "snmp_map" ∧
      ∃ json, (Compile.ruleSet {} none s).1 = .ok json ∧
        json.phaseAt? 1 = some "p" ∧ ¬ ReflTransGen json.Enters "snmp_map" "p" := by
  intro s
  have hread : (Compile.ruleSet {} none s).1.toOption.map Json.outline = some
      [(some "snmp_map", ["phase_1"]), (some "p", []), (some "phase_1", ["map_publish"])] := by
    decide +kernel
  obtain ⟨json, hjson, houtline⟩ := Json.exists_of_outline hread
  refine ⟨by decide, json, hjson, ?_, fun hreach => ?_⟩
  · rw [Json.phaseAt?_eq_outline, houtline]
    rfl
  · -- no block runs the phase
    rcases hreach.cases_tail with heq | ⟨other, -, henters⟩
    · exact absurd heq (by decide)
    · rw [Json.enters_iff_outline, houtline] at henters
      simp at henters

end EventRules

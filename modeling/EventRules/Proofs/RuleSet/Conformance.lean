import EventRules.Proofs.RuleSet.Document

/-! Whether the document of an accepted ruleset conforms to the schema. The checks let a phase be
declared as the sentinel, which is empty in the finished document; there is one violation for each
such declaration that reaches a block, and no other. -/
namespace EventRules

/-- The names are neither empty nor the sentinel. -/
def Phases.Named (p : Phases) : Prop :=
  ∀ name ∈ [p.entry, p.run, p.publish], name ≠ "" ∧ name ≠ emptySentinel

instance (p : Phases) : Decidable p.Named := inferInstanceAs (Decidable (∀ name ∈ _, _))

namespace RuleSet

/-- The phases that the ruleset declares for blocks: that of the first block, and those of rules. -/
def declaredPhases (s : RuleSet) : List String := s.entry?.toList ++ s.rulePhases

variable {catalog : Option Catalog} {configured phases : Phases} {s imported ordered : RuleSet}

theorem unquote_entry_iff (hn : configured.Named) :
    unquoteEmpty (s.effectivePhases configured).entry = "" ↔ s.entry? = some emptySentinel := by
  have hentry := hn configured.entry (by simp)
  rw [unquoteEmpty_eq_empty_iff, effectivePhases, Phases.override]
  cases h : s.entry? with
  | none => simp [hentry]
  | some name => simp [entry?_ne_empty h]

theorem unquote_phaseOr_iff {run : String} (hrun : run ≠ "" ∧ run ≠ emptySentinel) (r : Rule) :
    unquoteEmpty (r.phaseOr run) = "" ↔ r.phase? = some emptySentinel := by
  rw [unquoteEmpty_eq_empty_iff, Rule.phaseOr]
  cases h : r.phase? with
  | none => simp [hrun]
  | some name => simp [Text.nonBlank_ne_empty h]

/-- The phases of the document that are empty are those declared as the sentinel. -/
theorem countP_names (hn : configured.Named) {notify : Option String} {first : String}
    {blocks : List PhaseBlock}
    (hinner : Pipeline.Inner (s.effectivePhases configured) s first blocks) :
    (Pipeline.surrounded (s.effectivePhases configured) notify first blocks).names.countP
      (fun q => unquoteEmpty q = "") = s.declaredPhases.count emptySentinel := by
  have hrun := hn configured.run (by simp)
  have hrules : s.rules.countP (fun r => unquoteEmpty (r.phaseOr configured.run) = "") =
      s.rulePhases.count emptySentinel := by
    rw [rulePhases, List.count_filterMap]
    exact List.countP_congr fun r _ => by simpa using unquote_phaseOr_iff hrun r
  have hentry : [(s.effectivePhases configured).entry].countP (fun q => unquoteEmpty q = "") =
      s.entry?.toList.count emptySentinel := by
    rw [List.countP_singleton]
    simp only [decide_eq_true_eq, unquote_entry_iff hn]
    cases s.entry? <;> simp [List.count_singleton]
  have hlast : [(s.effectivePhases configured).run].countP (fun q => unquoteEmpty q = "") = 0 := by
    simp [unquoteEmpty_eq_empty_iff, effectivePhases, Phases.override, hrun]
  rw [Pipeline.names_surrounded, ← List.singleton_append, List.countP_append, List.countP_append,
    hinner.perm.countP_eq, List.countP_map, hlast, hentry, declaredPhases, List.count_append,
    ← hrules]
  rfl

/-- An accepted ruleset has a document, with one violation for each phase of a block that is
declared as the sentinel. -/
theorem Accepted.exists_violations (hn : configured.Named)
    (h : Accepted catalog (imported.effectivePhases configured) s imported ordered) :
    ∃ p, Pipeline.ofRuleSet (imported.effectivePhases configured) ordered = .ok p ∧
      Schema.pipeline p.toJson =
        List.replicate (s.declaredPhases.count emptySentinel) (.emptyText (.text "")) := by
  obtain ⟨first, blocks, hp, hinner⟩ := h.exists_inner
  refine ⟨_, hp, ?_⟩
  rw [Pipeline.violations_toJson Pipeline.length_surrounded]
  rw [h.effectivePhases_eq] at hinner ⊢
  rw [countP_names hn hinner]

theorem document_eq {p : Pipeline} (hp : Pipeline.ofRuleSet phases s = .ok p) :
    s.document phases = if Schema.pipeline p.toJson = [] then .ok p.toJson
      else .error (.invalidDocument (Schema.pipeline p.toJson)) := by
  rw [document, hp]
  dsimp only
  cases Schema.pipeline p.toJson <;> simp

end RuleSet

/-- Where the configured names are neither empty nor the sentinel, an accepted ruleset has a
document, and the schema finds in it one empty phase for each declared phase of a block that is the
sentinel, and nothing else; so it conforms exactly when no such phase is the sentinel. -/
theorem conformance_exact {configured : Phases} {catalog : Option Catalog}
    {s imported ordered : RuleSet} (hn : configured.Named)
    (h : RuleSet.Accepted catalog (imported.effectivePhases configured) s imported ordered) :
    ∃ p, Pipeline.ofRuleSet (imported.effectivePhases configured) ordered = .ok p ∧
      Schema.pipeline p.toJson =
        List.replicate (s.declaredPhases.count emptySentinel) (.emptyText (.text "")) ∧
      ordered.document (imported.effectivePhases configured) =
        if emptySentinel ∈ s.declaredPhases then
          .error (.invalidDocument
            (List.replicate (s.declaredPhases.count emptySentinel) (.emptyText (.text ""))))
        else .ok p.toJson := by
  obtain ⟨p, hp, hviolations⟩ := h.exists_violations hn
  refine ⟨p, hp, hviolations, ?_⟩
  rw [RuleSet.document_eq hp, hviolations]
  by_cases hmem : emptySentinel ∈ s.declaredPhases
  · have hcount := List.count_pos_iff.mpr hmem
    rw [if_pos hmem, if_neg (by simpa using hcount.ne')]
  · rw [if_neg hmem, if_pos (by simpa using List.count_eq_zero.mpr hmem)]

/-- Groups of conditions, a search with a filter and a notification make no violations, nor does
the sentinel outside the phases. -/
theorem conformance_exact_filtered :
    let search : TopologySearch :=
      { field := "f", value := "${v}", filter := some ⟨{}, "${x}", "oneOf", ["1", "2"]⟩,
        updates := [⟨"k", "\"\""⟩] }
    let condition : Condition := .group {} "Any"
      [.comparison ⟨{}, "${x}", "contains", ["a", "b"]⟩, .comparison ⟨{}, "y", "assigned", []⟩]
    let s : RuleSet := { notifyId := some "1.3", publishPhase := some "\"\"", entries :=
      [("u", { description := "d", condition := some condition,
               actions := [.ofEffect "" (.searchTopology search), .copy "A" "\"\""] })] }
    Phases.Named {} ∧ ∃ imported ordered p,
      RuleSet.Accepted none (imported.effectivePhases {}) s imported ordered ∧
      Pipeline.ofRuleSet (imported.effectivePhases {}) ordered = .ok p ∧
      Schema.pipeline p.toJson = [] ∧
      ordered.document (imported.effectivePhases {}) = .ok p.toJson := by
  intro search condition s
  have hn : Phases.Named {} := by decide
  let imported : RuleSet := { s with entries := s.resolveEach.1 }
  have h : RuleSet.Accepted none (imported.effectivePhases {}) s imported _ :=
    RuleSet.accepted_of_checks (by decide +kernel) (by decide +kernel) rfl (by decide +kernel)
      (by decide +kernel) (by decide +kernel)
  obtain ⟨p, hp, hviolations, hdocument⟩ := conformance_exact hn h
  have hcount : s.declaredPhases.count emptySentinel = 0 := by decide +kernel
  rw [hcount, List.replicate_zero] at hviolations
  rw [if_neg (List.count_eq_zero.mp hcount)] at hdocument
  exact ⟨hn, _, _, p, h, hp, hviolations, hdocument⟩

/-- The phase of a rule may be the sentinel, and then an accepted ruleset has no valid document. -/
theorem conformance_lost :
    let s : RuleSet := { entries :=
      [("u", { description := "d", phaseName := some "\"\"", actions := [.copy "A" "1"] })] }
    Phases.Named {} ∧ ∃ imported ordered,
      RuleSet.Accepted none (imported.effectivePhases {}) s imported ordered ∧
      ordered.document (imported.effectivePhases {}) =
        .error (.invalidDocument [.emptyText (.text "")]) := by
  intro s
  have hn : Phases.Named {} := by decide
  let imported : RuleSet := { s with entries := s.resolveEach.1 }
  have h : RuleSet.Accepted none (imported.effectivePhases {}) s imported _ :=
    RuleSet.accepted_of_checks (by decide +kernel) (by decide +kernel) rfl (by decide +kernel)
      (by decide +kernel) (by decide +kernel)
  obtain ⟨p, hp, hviolations⟩ := h.exists_violations hn
  have hcount : s.declaredPhases.count emptySentinel = 1 := by decide +kernel
  rw [hcount, List.replicate_one] at hviolations
  refine ⟨hn, _, _, h, ?_⟩
  rw [RuleSet.document_eq hp, hviolations, if_neg (List.cons_ne_nil _ _)]

end EventRules

import EventRules.Proofs.Action.Alike
import EventRules.Proofs.RuleSet.Accepted

/-! Rules that differ in their identifiers and descriptions, in the names of their groups and in
what is free in their actions and conditions. They are accepted together and have the same
dependencies and the same blocks. -/
namespace EventRules

open Check Relator

/-- Both rules have a description or neither does, and they agree in the actions, the condition and
the phases. What their groups are called corresponds; identifiers and schemas are free. -/
structure Rule.Alike (same : String → String → Prop) (r t : Rule) : Prop where
  description : isFilled r.description = isFilled t.description
  actions : List.Forall₂ Action.Alike r.actions t.actions
  condition : Option.Rel Condition.Alike r.condition t.condition
  group : Option.Rel same r.group? t.group?
  phase : r.phase? = t.phase?
  entry : r.entry? = t.entry?
  publish : r.publish? = t.publish?
  notify : r.notify? = t.notify?

variable {same : String → String → Prop} {phases : Phases}

namespace Rule.Alike

variable {r t r' t' : Rule} (h : r.Alike same t)
include h

theorem checkActions_agrees :
    (if r.actions.isEmpty then report .noActions else each Action.check r.actions).Agrees
      (if t.actions.isEmpty then report .noActions else each Action.check t.actions) := by
  rw [isEmpty_eq_of_forall₂ h.actions]
  split
  · exact agrees_report
  · exact agrees_each (fun _ _ hab => Action.Alike.check_agrees hab) h.actions

theorem check_agrees : r.check.Agrees t.check := by
  have hphase : (r.group?.isNone || r.phase?.isSome) = (t.group?.isNone || t.phase?.isSome) := by
    rw [isNone_eq_of_rel h.group, h.phase]
  have hcondition := agrees_option (fun _ _ hcd => Condition.Alike.check_agrees hcd) h.condition
  apply agrees_all
  exact .cons (agrees_require hphase) (.cons (agrees_require h.description)
    (.cons h.checkActions_agrees (.cons hcondition .nil)))

theorem actionGraph_eq : r.actionGraph = t.actionGraph :=
  ofItems_eq_of_forall₂ (fun _ _ hab _ _ hab' => Action.dependsOn_eq hab hab') h.actions

/-- Actions picked at the same places keep the rules alike, whatever their identifiers. -/
theorem arranged (places : List ℕ) (uid uid' : String) :
    ({ r with uid, actions := pick r.actions places } : Rule).Alike same
      { t with uid := uid', actions := pick t.actions places } :=
  { h with actions := pick_forall₂ h.actions places }

theorem sources_eq : r.sources = t.sources := by
  have hactions : r.actions.flatMap Action.sources = t.actions.flatMap Action.sources := by
    rw [List.flatMap_def, List.flatMap_def,
      map_eq_of_forall₂ (fun _ _ hab => Action.Alike.sources_eq hab) h.actions]
  have hcondition := map_eq_of_rel h.condition fun _ _ hcd => Condition.Alike.sources_eq hcd
  unfold sources
  rw [hactions, hcondition]

theorem inOtherGroup_eq (hsame : BiUnique same) (h' : r'.Alike same t') :
    r.inOtherGroup r' = t.inOtherGroup t' := by
  have hrel := h.group
  have hrel' := h'.group
  revert hrel hrel'
  unfold inOtherGroup
  generalize r.group? = own
  generalize t.group? = own'
  rintro (hg | _)
  · generalize r'.group? = other
    generalize t'.group? = other'
    rintro (hg' | _)
    · exact decide_eq_decide.mpr (not_congr (rel_eq hsame hg hg'))
    · rfl
  · intro _
    rfl

theorem dependsOn_eq (hsame : BiUnique same) (h' : r'.Alike same t') :
    r.dependsOn r' = t.dependsOn t' := by
  have hfields : (r'.actions.any fun action => Text.references t.sources action.field) =
      t'.actions.any fun action => Text.references t.sources action.field :=
    any_eq_of_forall₂ (fun _ _ hab => by rw [Action.Alike.field_eq hab]) h'.actions
  unfold dependsOn
  simp only [h.inOtherGroup_eq hsame h', h.sources_eq, hfields]

theorem phaseOr_eq (run : String) : r.phaseOr run = t.phaseOr run := by
  unfold phaseOr
  rw [h.phase]

theorem filter?_eq_ok {filter : Option Filter} :
    r.filter? = .ok filter ↔ t.filter? = .ok filter := by
  have hrel := h.condition
  revert hrel
  unfold filter?
  generalize r.condition = own
  generalize t.condition = other
  rintro (hcd | _)
  · simp only [map_eq_ok, hcd.filter_eq_ok]
  · rfl

theorem block_eq_ok {b : PhaseBlock} : r.block phases = .ok b ↔ t.block phases = .ok b := by
  rw [Rule.block_eq_ok, Rule.block_eq_ok, h.phaseOr_eq]
  simp only [h.filter?_eq_ok, Action.processors_eq_ok h.actions]

end Rule.Alike

variable {rules rules' : List Rule} {groups groups' : List (List Rule)}
  {entered : List String} {blocks : List PhaseBlock}

theorem Rule.blocks_eq_ok_of_alike (h : List.Forall₂ (Alike same) rules rules') :
    Rule.blocks phases rules = .ok blocks ↔ Rule.blocks phases rules' = .ok blocks := by
  rw [blocks_eq_ok, blocks_eq_ok]
  induction h generalizing blocks with
  | nil => rfl
  | cons hrt _ ih =>
    rw [List.forall₂_cons_left_iff, List.forall₂_cons_left_iff]
    simp only [hrt.block_eq_ok, ih]

namespace Pipeline

theorem groupPhase_eq (h : List.Forall₂ (Rule.Alike same) rules rules') :
    groupPhase phases rules = groupPhase phases rules' := by
  unfold groupPhase
  obtain _ | ⟨hrt, -⟩ := h
  · rfl
  · exact hrt.phaseOr_eq phases.run

theorem nextPhase_eq_of_alike (h : List.Forall₂ (List.Forall₂ (Rule.Alike same)) groups groups') :
    nextPhase phases groups = nextPhase phases groups' := by
  unfold nextPhase
  obtain _ | ⟨hgroup, -⟩ := h
  · rfl
  · exact groupPhase_eq hgroup

theorem chain_eq_ok_of_alike (h : List.Forall₂ (List.Forall₂ (Rule.Alike same)) groups groups') :
    chain phases entered groups = .ok blocks ↔ chain phases entered groups' = .ok blocks := by
  induction h generalizing entered blocks with
  | nil => rfl
  | cons hgroup hrest ih =>
    rw [chain_cons_eq_ok, chain_cons_eq_ok, groupPhase_eq hgroup, nextPhase_eq_of_alike hrest]
    simp only [Rule.blocks_eq_ok_of_alike hgroup, ih]

end Pipeline

end EventRules

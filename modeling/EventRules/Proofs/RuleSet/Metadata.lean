import EventRules.Proofs.Payload.RoundTrip
import EventRules.Proofs.RuleSet.Alike
import Mathlib.Logic.Equiv.Basic

/-! Compilation does not see metadata: rulesets that are alike, with groups that are called
differently, have the same document or both none, and so have the documents in which they are
written. -/
namespace EventRules

open Relator

namespace Compile

variable {configured : Phases} {catalog : Option Catalog} {s t : RuleSet} {json : Json}

/-- The stages of a successful compilation, each as a condition on what the one before has made of
the ruleset. -/
theorem ruleSet_eq_ok_iff : (ruleSet configured catalog s).1 = .ok json ↔
    (s.check catalog).problems = [] ∧ s.resolveEach.2 = [] ∧ s.settled.checkGroups.accepts ∧
      (s.settled.effectivePhases configured).entry ∉ s.settled.rulePhases ∧
      (s.settled.effectivePhases configured).publish ∉ s.settled.rulePhases ∧
      s.settled.ruleGraph.unresolvable = [] ∧
      s.settled.ordered.document (s.settled.effectivePhases configured) = .ok json := by
  rw [ruleSet_eq_ok]
  constructor
  · rintro ⟨imported, ordered, h, hdocument⟩
    obtain ⟨hproblems, hactions, rfl⟩ := RuleSet.imported_eq_ok.mp h.imports
    obtain ⟨hgroups, -⟩ := RuleSet.grouped_eq_ok.mp h.groups
    obtain ⟨hentry, hpublish, hrules⟩ := RuleSet.prepared_eq_ok.mp h.prepares
    obtain ⟨hcycles, rfl⟩ := RuleSet.resolveRules_eq_ok.mp hrules
    exact ⟨hproblems, hactions, hgroups, hentry, hpublish, hcycles, hdocument⟩
  · rintro ⟨hproblems, hactions, hgroups, hentry, hpublish, hcycles, hdocument⟩
    have haccepted := RuleSet.accepted_of_checks hproblems hactions rfl
      (RuleSet.accepts_checkGroups.mp hgroups) ⟨hentry, hpublish⟩ hcycles
    exact ⟨_, _, haccepted, hdocument⟩

/-- Rulesets that are alike up to a one-to-one correspondence of group names compile together. -/
theorem ruleSet_eq_ok_of_alike {same : String → String → Prop} (h : s.Alike same t)
    (hsame : BiUnique same) :
    (ruleSet configured none s).1 = .ok json ↔ (ruleSet configured none t).1 = .ok json := by
  have hs := h.settled
  have hproblems := h.check_agrees.problems_eq_nil_iff (s.check_built none) (t.check_built none)
  rw [ruleSet_eq_ok_iff, ruleSet_eq_ok_iff, hproblems, h.resolveEach_eq_nil_iff,
    hs.accepts_checkGroups_iff hsame, hs.effectivePhases_eq, hs.rulePhases_eq,
    hs.ruleGraph_eq hsame, (hs.ordered hsame).document_eq_ok hsame]

/-- A plain ruleset is compiled from its document as it is by itself. -/
theorem payload_toJson (h : s.Plain) (fresh : String) :
    payload fresh configured catalog (Payload.ofJson fresh s.toJson) =
      ruleSet configured catalog s := by
  have hread : Payload.ofJson fresh s.toJson = .ok (.ruleSet s) :=
    Payload.ofJson_toJson (p := .ruleSet s) h fresh
  rw [hread]
  rfl

end Compile

/-- A renaming that tells the groups of the ruleset apart is a one-to-one correspondence of them. -/
theorem RuleSet.Alike.of_rename {s t : RuleSet} {rename : String → String}
    (h : s.Alike (fun g g' => rename g = g') t)
    (hrename : Set.InjOn rename {g | g ∈ s.groupIds}) :
    ∃ same, BiUnique same ∧ s.Alike same t := by
  refine ⟨fun g g' => g ∈ s.groupIds ∧ rename g = g', ⟨?_, ?_⟩, { h with rules := ?_ }⟩
  · rintro a b _ ⟨ha, rfl⟩ ⟨hb, hab⟩
    exact hrename ha hb hab.symm
  · rintro _ _ _ ⟨-, rfl⟩ ⟨-, rfl⟩
    rfl
  · have hmem := (List.forall₂_and_left (p := (· ∈ s.rules)) _ _).mpr ⟨fun _ hr => hr, h.rules⟩
    apply hmem.imp
    rintro r r' ⟨hr, halike⟩
    have hgroup : ∀ g ∈ r.group?, g ∈ s.groupIds := fun g hg =>
      mem_distinct.mpr (List.mem_filterMap.mpr ⟨r, hr, hg⟩)
    exact { halike with group := rel_and_left halike.group hgroup }

/-- Metadata does not influence the output. Two rulesets that agree rule by rule in everything but
keys and identifiers, the wording of descriptions, the identities of actions, the labels of
conditions, the spelling of kinds, operators and group types and the names of groups, where
different groups keep different names, compile to the same document or both to none. The same is
true of the documents in which they are written, where the spelled kind decides how an action is
read. -/
theorem metadata_invisible {s t : RuleSet} {rename : String → String}
    (h : s.Alike (fun g g' => rename g = g') t)
    (hrename : Set.InjOn rename {g | g ∈ s.groupIds}) (configured : Phases) (json : Json) :
    ((Compile.ruleSet configured none s).1 = .ok json ↔
      (Compile.ruleSet configured none t).1 = .ok json) ∧
    (s.Plain → t.Plain → ∀ fresh,
      ((Compile.payload fresh configured none (Payload.ofJson fresh s.toJson)).1 = .ok json ↔
        (Compile.payload fresh configured none (Payload.ofJson fresh t.toJson)).1 = .ok json)) := by
  obtain ⟨same, hsame, halike⟩ := h.of_rename hrename
  have hcompile : (Compile.ruleSet configured none s).1 = .ok json ↔
      (Compile.ruleSet configured none t).1 = .ok json :=
    Compile.ruleSet_eq_ok_of_alike halike hsame
  refine ⟨hcompile, fun hs ht fresh => ?_⟩
  rw [Compile.payload_toJson hs, Compile.payload_toJson ht]
  exact hcompile

/-- Two groups that change names, in other spellings, with other labels, identifiers and
descriptions; the actions of the first rule have to change places. -/
theorem metadata_invisible_swapped :
    let copy (id : Option String) (name target value : String) : Action :=
      ⟨id, name, target, .copy { value }⟩
    let condition (label : NodeLabel) (kind operator : String) : Condition :=
      .group label kind [.comparison ⟨label, "x", operator, ["1"]⟩]
    let u : Rule :=
      { uid := "u", description := "d", groupId := some "a", phaseName := some "p",
        actions := [copy none "Copy" "A" "${B}", copy (some "1") "copy" "B" "2"],
        condition := some (condition {} "All" "one of") }
    let u' : Rule :=
      { uid := "9", description := "e", groupId := some "b", phaseName := some "p",
        actions := [copy (some "2") "C O P Y" "A" "${B}", copy none "Copy" "B" "2"],
        condition := some (condition { name := some "n" } "a l l" "OneOf") }
    let v : Rule :=
      { uid := "v", description := "d", groupId := some "b", phaseName := some "q",
        actions := [copy none "copy" "C" "3"] }
    let v' : Rule :=
      { uid := "8", description := "f", groupId := some " a ", phaseName := some "q",
        actions := [copy none "COPY" "C" "3"] }
    let s : RuleSet := { entries := [("u", u), ("v", v)] }
    let t : RuleSet := { entries := [("9", u'), ("8", v')] }
    (s.groupIds = ["a", "b"] ∧ t.groupIds = ["b", "a"]) ∧
      ∃ json, (Compile.ruleSet {} none s).1 = .ok json ∧ (Compile.ruleSet {} none t).1 = .ok json ∧
        (Compile.payload "" {} none (Payload.ofJson "" s.toJson)).1 = .ok json ∧
        (Compile.payload "" {} none (Payload.ofJson "" t.toJson)).1 = .ok json := by
  intro copy condition u u' v v' s t
  have hcopy (id : Option String) (name target value : String)
      (hname : ActionKind.ofName? name = some .copy) : (copy id name target value).Plain :=
    ⟨hname, nofun⟩
  have hrules {a b : Rule} (hids : a.uid ≠ b.uid) (ha : a.Plain) (hb : b.Plain) :
      ({ entries := [(a.uid, a), (b.uid, b)] } : RuleSet).Plain :=
    { rules := List.forall_mem_cons.mpr ⟨ha, List.forall_mem_singleton.mpr hb⟩
      ids := List.nodup_cons.mpr ⟨by simpa using hids, List.nodup_singleton _⟩
      synced := List.forall_mem_cons.mpr ⟨rfl, List.forall_mem_singleton.mpr rfl⟩ }
  have hcondition {c : Condition} (hc : c.Plain) : ∀ d ∈ some c, d.Plain := by
    rintro _ ⟨⟩
    exact hc
  have hu : u.Plain :=
    ⟨List.forall_mem_cons.mpr ⟨hcopy _ _ _ _ (by decide +kernel),
      List.forall_mem_singleton.mpr (hcopy _ _ _ _ (by decide +kernel))⟩,
      hcondition ⟨nofun, nofun, trivial⟩⟩
  have hu' : u'.Plain :=
    ⟨List.forall_mem_cons.mpr ⟨hcopy _ _ _ _ (by decide +kernel),
      List.forall_mem_singleton.mpr (hcopy _ _ _ _ (by decide +kernel))⟩,
      hcondition ⟨nofun, nofun, trivial⟩⟩
  have hv : v.Plain := ⟨List.forall_mem_singleton.mpr (hcopy _ _ _ _ (by decide +kernel)), nofun⟩
  have hv' : v'.Plain := ⟨List.forall_mem_singleton.mpr (hcopy _ _ _ _ (by decide +kernel)), nofun⟩
  have hs : s.Plain := hrules (by decide) hu hv
  have ht : t.Plain := hrules (by decide) hu' hv'
  have hfirst : u.Alike (fun g g' => Equiv.swap "a" "b" g = g') u' :=
    { description := by decide
      actions := .cons (Action.alike_of_spelling ..) (.cons (Action.alike_of_spelling ..) .nil)
      condition := .some (.group (GroupKind.ofName?_eq (by decide)) (.cons
        (.comparison (Comparison.alike_of_spelling (by decide))) .nil))
      group := .some (Equiv.swap_apply_left "a" "b")
      phase := rfl, entry := rfl, publish := rfl, notify := rfl }
  have hsecond : v.Alike (fun g g' => Equiv.swap "a" "b" g = g') v' :=
    { description := by decide
      actions := .cons (Action.alike_of_spelling ..) .nil
      condition := .none
      group := .some (Equiv.swap_apply_right "a" "b")
      phase := rfl, entry := rfl, publish := rfl, notify := rfl }
  have halike : s.Alike (fun g g' => Equiv.swap "a" "b" g = g') t :=
    ⟨rfl, rfl, rfl, .cons hfirst (.cons hsecond .nil)⟩
  have hrename : Set.InjOn (Equiv.swap "a" "b") {g | g ∈ s.groupIds} :=
    (Equiv.swap "a" "b").injective.injOn
  have hsome : (s.settled.ordered.document (s.settled.effectivePhases {})).isOk := by
    decide +kernel
  obtain ⟨json, hjson⟩ :
      ∃ json, s.settled.ordered.document (s.settled.effectivePhases {}) = .ok json := by
    cases hresult : s.settled.ordered.document (s.settled.effectivePhases {}) with
    | error fault => simp [hresult, Except.isOk, Except.toBool] at hsome
    | ok json => exact ⟨json, rfl⟩
  have hcompile : (Compile.ruleSet {} none s).1 = .ok json :=
    Compile.ruleSet_eq_ok_iff.mpr ⟨by decide +kernel, by decide +kernel,
      RuleSet.accepts_checkGroups.mpr (by decide +kernel), by decide +kernel, by decide +kernel,
      by decide +kernel, hjson⟩
  have hpayload : (Compile.payload "" {} none (Payload.ofJson "" s.toJson)).1 = .ok json := by
    rw [Compile.payload_toJson hs]
    exact hcompile
  obtain ⟨hruleSet, hread⟩ := metadata_invisible halike hrename {} json
  exact ⟨by decide +kernel, json, hcompile, hruleSet.mp hcompile, hpayload,
    (hread hs ht "").mp hpayload⟩

end EventRules

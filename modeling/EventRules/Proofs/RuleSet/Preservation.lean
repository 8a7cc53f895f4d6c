import EventRules.Proofs.RuleSet.Accepted

/-! What resolution leaves alone. Actions and rules change their places and nothing else: none is
lost, repeated or altered, each rule of an imported ruleset keeps its place and its key, and what a
ruleset declares for itself stays. -/
namespace EventRules

namespace RuleSet

variable {catalog : Option Catalog} {s t : RuleSet}

theorem ids_of_imported (h : s.imported catalog = .ok t) : t.ids = s.ids := by
  rw [ids, ids, Ordered.keys, Ordered.keys, ← List.forall₂_eq_eq_eq, List.forall₂_map_left_iff,
    List.forall₂_map_right_iff]
  exact (imports_of_imported h).flip.imp fun _ _ himports => himports.1

theorem ids_perm_of_resolveRules (h : s.resolveRules = .ok t) : t.ids.Perm s.ids :=
  (entries_perm_of_resolveRules h).map Prod.fst

end RuleSet

/-- Resolution permutes: the order of any graph holds every item once, a resolved rule differs in
the order of its actions alone, an imported ruleset in that and in the identifiers of its rules, and
a resolved ruleset in the order of its entries. Their keys stay distinct, so a table of the entries
loses none. -/
theorem resolution_preserves {α : Type} (relation : α → α → Bool) (items : List α) (r : Rule)
    (s : RuleSet) (catalog : Option Catalog) :
    (DependencyGraph.ofItems relation items).order.Perm (List.range items.length) ∧
    (∀ r1, r.resolveActions = .ok r1 → r.Reordered r1) ∧
    (∀ t, s.imported catalog = .ok t →
      (∃ entries, t = { s with entries } ∧ List.Forall₂ RuleSet.Imports s.entries entries) ∧
      (s.ids.Nodup → Ordered.ofPairs t.entries = t.entries)) ∧
    ∀ t, s.resolveRules = .ok t →
      (∃ entries, t = { s with entries } ∧ entries.Perm s.entries) ∧
      (s.ids.Nodup → Ordered.ofPairs t.entries = t.entries) := by
  refine ⟨order_ofItems_perm relation items, fun r1 h => Rule.reordered_of_resolveActions h,
    fun t h => ⟨?_, fun hids => ?_⟩, fun t h => ⟨?_, fun hids => ?_⟩⟩
  · have himports := RuleSet.imports_of_imported h
    obtain ⟨-, -, rfl⟩ := RuleSet.imported_eq_ok.mp h
    exact ⟨_, rfl, himports⟩
  · rw [← RuleSet.ids_of_imported h] at hids
    exact Ordered.ofPairs_eq_self hids
  · have hperm := RuleSet.entries_perm_of_resolveRules h
    obtain ⟨-, rfl⟩ := RuleSet.resolveRules_eq_ok.mp h
    exact ⟨_, rfl, hperm⟩
  · exact Ordered.ofPairs_eq_self ((RuleSet.ids_perm_of_resolveRules h).nodup_iff.mpr hids)

/-- Two rules of which the first reads in its condition what the second writes, and has actions that
have to change places. -/
theorem resolution_preserves_swapped :
    let u : Rule :=
      { description := "d", actions := [.copy "A" "${B}", .copy "B" "1"],
        condition := some (.comparison ⟨{}, "${x}", "equals", ["1"]⟩) }
    let v : Rule := { uid := "w", description := "d", actions := [.copy "x" "1"] }
    let s : RuleSet := { version := some "4", entries := [("u", u), ("v", v)] }
    ∃ r1 t s1, u.resolveActions = .ok r1 ∧ s.imported none = .ok t ∧ s.resolveRules = .ok s1 ∧
      (r1.actions.map Action.target = ["B", "A"] ∧ u.Reordered r1) ∧
      (t.version = some "4" ∧ List.Forall₂ RuleSet.Imports s.entries t.entries ∧
        Ordered.ofPairs t.entries = t.entries) ∧
      s1.ids = ["v", "u"] ∧ s1.entries.Perm s.entries ∧
      Ordered.ofPairs s1.entries = s1.entries := by
  intro u v s
  have hu : u.resolveActions = .ok _ :=
    Rule.resolveActions_eq_ok.mpr ⟨by decide +kernel, rfl⟩
  have himported : s.imported none = .ok _ :=
    RuleSet.imported_eq_ok.mpr ⟨by decide +kernel, by decide +kernel, rfl⟩
  have hresolved : s.resolveRules = .ok _ :=
    RuleSet.resolveRules_eq_ok.mpr ⟨by decide +kernel, rfl⟩
  have hids : s.ids.Nodup := by decide
  obtain ⟨-, hrule, hset, hrules⟩ := resolution_preserves Rule.dependsOn s.rules u s none
  obtain ⟨⟨entries, ht, himports⟩, htable⟩ := hset _ himported
  obtain ⟨⟨others, hs1, hperm⟩, htable1⟩ := hrules _ hresolved
  refine ⟨_, _, _, hu, himported, hresolved, ⟨by decide +kernel, hrule _ hu⟩,
    ⟨rfl, ?_, htable hids⟩, by decide +kernel, ?_, htable1 hids⟩
  · rwa [ht]
  · rwa [hs1]

end EventRules

import EventRules.Proofs.Dependency.Stability

/-! Which write of a field is the last one when actions and rules are put in order. An action writes
one field, so the actions that write it without reading it have the same readers and keep their
order. A rule writes several, and may be moved before another writer of one of them for the sake of
a reader of the others. -/
namespace EventRules
open Relation

namespace Action

/-- The action writes the field and does not read it. -/
def overwrites (f : String) (a : Action) : Bool := a.field == f && !Text.references a.sources f

variable {f : String} {a b : Action}

theorem overwrites_iff : a.overwrites f ↔ a.field = f ∧ ¬ Text.references a.sources f := by
  simp [overwrites]

theorem dependsOn_of_overwrites (ha : a.overwrites f) (hb : b.overwrites f) {c : Action}
    (h : c.dependsOn b) : c.dependsOn a := by
  rw [dependsOn, (overwrites_iff.mp ha).1]
  rwa [dependsOn, (overwrites_iff.mp hb).1] at h

theorem not_dependsOn_of_overwrites (ha : a.overwrites f) (hb : b.overwrites f) :
    ¬ a.dependsOn b := by
  rw [dependsOn, (overwrites_iff.mp hb).1]
  exact (overwrites_iff.mp ha).2

/-- Where no writer of the field reads it, its last writer is the last of those that do not. -/
theorem findRev?_field {actions : List Action}
    (h : ∀ a ∈ actions, a.field = f → a.overwrites f) :
    actions.findRev? (·.field == f) = (actions.filter (overwrites f)).getLast? := by
  have hsame : actions.filter (·.field == f) = actions.filter (overwrites f) := by
    refine List.filter_congr fun a ha => Bool.eq_iff_iff.mpr ⟨fun hf => ?_, fun ho => ?_⟩
    · exact h a ha (by simpa using hf)
    · simpa using (overwrites_iff.mp ho).1
  rw [List.findRev?_eq_find?_reverse, ← List.getLast?_filter, hsame]

/-- Putting actions in order keeps those in their order that write a field and do not read it. -/
theorem filter_overwrites_arranged (actions : List Action) (f : String) :
    (arranged dependsOn actions).filter (overwrites f) = actions.filter (overwrites f) :=
  filter_arranged_of_alike (fun _ _ _ ha hb hc => dependsOn_of_overwrites ha hb hc)
    fun _ _ ha hb => not_dependsOn_of_overwrites ha hb

end Action

/-- The writes of a field by the actions of an accepted rule: those actions that do not read it
keep their order, and where none of its writers reads it the last one stays the last. -/
theorem last_write_kept {r r1 : Rule} (h : r.resolveActions = .ok r1) :
    (∃ order : List ℕ, order.Perm (List.range r.actions.length) ∧
      r1.actions = pick r.actions order ∧
      ∀ f i j, i < j → (∃ a ∈ r.actions[i]?, a.overwrites f) →
        (∃ b ∈ r.actions[j]?, b.overwrites f) → order.idxOf i < order.idxOf j) ∧
    ∀ f, r1.actions.filter (Action.overwrites f) = r.actions.filter (Action.overwrites f) ∧
      ((∀ a ∈ r.actions, a.field = f → a.overwrites f) →
        r1.actions.findRev? (·.field == f) = r.actions.findRev? (·.field == f)) := by
  obtain ⟨-, rfl⟩ := Rule.resolveActions_eq_ok.mp h
  have hperm := arranged_perm Action.dependsOn r.actions
  refine ⟨⟨r.actionGraph.order, order_ofItems_perm _ _, rfl, ?_⟩, fun f => ⟨?_, fun hall => ?_⟩⟩
  · intro f i j hij hi hj
    have hplace {k : ℕ} (hk : ∃ a ∈ r.actions[k]?, a.overwrites f) :
        k ∈ placesOf (Action.overwrites f) r.actions := (mem_placesOf _ _).mpr hk
    refine idxOf_lt_of_alike hij (lt_of_mem_placesOf _ _ (hplace hj)) fun k hk => ?_
    refine hk.of_alike ?_ ?_ (hplace hi) (hplace hj)
    · exact fun _ _ _ ha hb hc => Action.dependsOn_of_overwrites ha hb hc
    · exact fun _ _ ha hb => Action.not_dependsOn_of_overwrites ha hb
  · exact Action.filter_overwrites_arranged r.actions f
  · change (arranged Action.dependsOn r.actions).findRev? _ = _
    rw [Action.findRev?_field fun a ha => hall a (hperm.mem_iff.mp ha), Action.findRev?_field hall,
      Action.filter_overwrites_arranged]

/-- Two writers of a field, of which one names it in its decoration, are moved before its reader. -/
theorem last_write_kept_decorated :
    let actions := [Action.copy "Z" "${A}", .copy "${A}" "1", .copy "B" "${Z}", .copy "A" "2"]
    ∃ r1 order, Rule.resolveActions { actions } = .ok r1 ∧
      r1.actions.map Action.target = ["${A}", "A", "Z", "B"] ∧
      (r1.actions = pick actions order ∧ order.idxOf 1 < order.idxOf 3) ∧
      (∀ a ∈ actions, a.field = "A" → a.overwrites "A") ∧
      (r1.actions.findRev? (·.field == "A")).map Action.target = some "A" := by
  intro actions
  have hr : Rule.resolveActions { actions } = .ok _ :=
    Rule.resolveActions_eq_ok.mpr ⟨by decide +kernel, rfl⟩
  have hplain : ∀ a ∈ actions, a.field = "A" → a.overwrites "A" := by decide +kernel
  obtain ⟨⟨order, -, horder, hlt⟩, hkept⟩ := last_write_kept hr
  have hfirst := hlt "A" 1 3 (by decide) ⟨_, rfl, by decide +kernel⟩ ⟨_, rfl, by decide +kernel⟩
  refine ⟨_, order, hr, by decide +kernel, ⟨horder, hfirst⟩, hplain, ?_⟩
  rw [(hkept "A").2 hplain]
  decide +kernel

/-- An item needs nothing outside a list that holds what it and the items of the list depend on. -/
theorem not_transGen_of_closed {α : Type} {relation : α → α → Bool} {items : List α} {i j : ℕ}
    (needed : List ℕ) (hclosed : ∀ k ∈ i :: needed, ∀ l < items.length,
      (DependencyGraph.ofItems relation items).dependsOn k l → l ∈ needed) (hj : j ∉ needed) :
    ¬ TransGen (Depends relation items) i j := by
  intro hchain
  have hstep {k l : ℕ} (hk : k ∈ i :: needed) (hkl : Depends relation items k l) : l ∈ needed :=
    hclosed k hk l hkl.lt_right ((DependencyGraph.ofItems_dependsOn relation items k l).mpr hkl)
  induction hchain with
  | single hij => exact hj (hstep (by simp) hij)
  | tail hik hkl ih => exact ih fun hk => hj (hstep (by simp [hk]) hkl)

section Rivals

variable {rules : List Rule} {f : String} {i j k : ℕ}

/-- The rule at a place writes the field. -/
def WritesAt (rules : List Rule) (f : String) (i : ℕ) : Prop :=
  ∃ r ∈ rules[i]?, f ∈ r.actions.map Action.field

/-- The rule at a place reads the field, in its condition or in one of its actions. -/
def ReadsAt (rules : List Rule) (f : String) (k : ℕ) : Prop :=
  ∃ r ∈ rules[k]?, Text.references r.sources f

/-- Two rules of the same group, or both of none, that write a common field and neither of which
depends on the other one, directly or through others. -/
structure Rivals (rules : List Rule) (i j : ℕ) : Prop where
  same_group : (rules[i]?).map Rule.group? = (rules[j]?).map Rule.group?
  common : ∃ f ≠ "", WritesAt rules f i ∧ WritesAt rules f j
  not_needs : ¬ TransGen (Depends Rule.dependsOn rules) i j
  not_needed : ¬ TransGen (Depends Rule.dependsOn rules) j i

theorem WritesAt.lt (h : WritesAt rules f i) : i < rules.length := by
  obtain ⟨r, hr, -⟩ := h
  exact (List.getElem?_eq_some_iff.mp hr).1

/-- A rule that reads a field depends on the writers of the field that are not in other groups. -/
theorem Rule.dependsOn_iff_of_references {r x : Rule} (hf : Text.references r.sources f)
    (hx : f ∈ x.actions.map Action.field) : r.dependsOn x ↔ ¬ r.inOtherGroup x := by
  obtain ⟨a, ha, rfl⟩ := List.mem_map.mp hx
  have hany : x.actions.any fun action => Text.references r.sources action.field :=
    List.any_eq_true.mpr ⟨a, ha, hf⟩
  simp [dependsOn, hany]

/-- A reader of a field that two rules of one group write depends on both of them. -/
theorem depends_of_common (hgroup : (rules[i]?).map Rule.group? = (rules[j]?).map Rule.group?)
    (hf : ReadsAt rules f k) (hi : WritesAt rules f i) (hj : WritesAt rules f j) (hki : i ≠ k)
    (h : Depends Rule.dependsOn rules k j) : Depends Rule.dependsOn rules k i := by
  obtain ⟨r, hr, href⟩ := hf
  obtain ⟨x, hx, hfx⟩ := hi
  obtain ⟨y, hy, hfy⟩ := hj
  obtain ⟨-, r', hr', y', hy', hdep⟩ := h
  obtain rfl : r = r' := Option.some.inj (hr.symm.trans hr')
  obtain rfl : y = y' := Option.some.inj (hy.symm.trans hy')
  rw [Option.mem_def] at hx hy
  have hsame : x.group? = y.group? := by simpa [hx, hy] using hgroup
  refine ⟨hki, r, hr, x, hx, (Rule.dependsOn_iff_of_references href hfx).mpr ?_⟩
  have hother := (Rule.dependsOn_iff_of_references href hfy).mp hdep
  rwa [Rule.inOtherGroup, ← hsame] at hother

end Rivals

/-- Two writers of a common field among the rules of an accepted ruleset, when neither depends on
the other one: the earlier one stays before the later one exactly when it is reached first. So it
does if all that depends on the later one, and is needed from further up, depends on the earlier one
as well, as every reader of a field does that both write. -/
theorem rivals_kept_exact {s s1 : RuleSet} (h : s.resolveRules = .ok s1) :
    ∃ order : List ℕ, order.Perm (List.range s.rules.length) ∧ s1.entries = pick s.entries order ∧
      ∀ i j, i < j → Rivals s.rules i j →
        (order.idxOf i < order.idxOf j ↔ ReachedFirst (Depends Rule.dependsOn s.rules) i j) ∧
        ((∀ l k, l < i → ReflTransGen (Depends Rule.dependsOn s.rules) l k →
            Depends Rule.dependsOn s.rules k j → Depends Rule.dependsOn s.rules k i) →
          order.idxOf i < order.idxOf j) ∧
        ∀ f k, WritesAt s.rules f i → WritesAt s.rules f j → ReadsAt s.rules f k → i ≠ k → j ≠ k →
          (Depends Rule.dependsOn s.rules k j ↔ Depends Rule.dependsOn s.rules k i) := by
  obtain ⟨-, rfl⟩ := RuleSet.resolveRules_eq_ok.mp h
  refine ⟨s.ruleGraph.order, order_ofItems_perm _ _, rfl, fun i j hij hr => ?_⟩
  obtain ⟨_, -, hi, hj⟩ := hr.common
  have hexact : s.ruleGraph.order.idxOf i < s.ruleGraph.order.idxOf j ↔
      ReachedFirst (Depends Rule.dependsOn s.rules) i j := idxOf_lt_iff_reachedFirst hi.lt hj.lt
  refine ⟨hexact, fun hneeded => ?_, fun f k hfi hfj hk hki hkj => ⟨?_, ?_⟩⟩
  · have hfree := hr.not_needs
    rw [← ofItems_dependsOn_eq] at hneeded hfree
    rw [hexact, ← ofItems_dependsOn_eq]
    exact DependencyGraph.reachedFirst_of_needed hij hfree hneeded
  · exact depends_of_common hr.same_group hk hfi hfj hki
  · exact depends_of_common hr.same_group.symm hk hfj hfi hkj

/-- A reader of two fields before two writers of the one, of which the later one writes the other as
well. -/
theorem rivals_kept_exact_shared :
    let s : RuleSet := { entries := [("r", { actions := [.copy "Y" "${F}${G}"] }),
      ("u", { actions := [.copy "F" "1"] }), ("v", { actions := [.copy "F" "2", .copy "G" "1"] })] }
    ∃ s1 order, s.resolveRules = .ok s1 ∧ s1.ids = ["u", "v", "r"] ∧ Rivals s.rules 1 2 ∧
      s1.entries = pick s.entries order ∧ order.idxOf 1 < order.idxOf 2 ∧
      (Depends Rule.dependsOn s.rules 0 2 ↔ Depends Rule.dependsOn s.rules 0 1) := by
  intro s
  have hs : s.resolveRules = .ok _ := RuleSet.resolveRules_eq_ok.mpr ⟨by decide +kernel, rfl⟩
  have hu : WritesAt s.rules "F" 1 := ⟨_, rfl, by decide +kernel⟩
  have hv : WritesAt s.rules "F" 2 := ⟨_, rfl, by decide +kernel⟩
  have hr : ReadsAt s.rules "F" 0 := ⟨_, rfl, by decide +kernel⟩
  have hrivals : Rivals s.rules 1 2 := ⟨rfl, ⟨"F", by decide, hu, hv⟩,
    not_transGen_of_closed [] (by decide +kernel) (by decide),
    not_transGen_of_closed [] (by decide +kernel) (by decide)⟩
  have hreaders : ∀ k < 3, s.ruleGraph.dependsOn k 2 → s.ruleGraph.dependsOn k 1 := by
    decide +kernel
  obtain ⟨order, -, horder, hexact⟩ := rivals_kept_exact hs
  obtain ⟨-, hneeded, hcommon⟩ := hexact 1 2 (by decide) hrivals
  refine ⟨_, order, hs, by decide +kernel, hrivals, horder, hneeded fun l k hl hlk hk => ?_, ?_⟩
  · have hread := hreaders k hk.lt_left ((DependencyGraph.ofItems_dependsOn _ _ k 2).mpr hk)
    exact (DependencyGraph.ofItems_dependsOn _ _ k 1).mp hread
  · exact hcommon "F" 0 hu hv hr (by decide) (by decide)

/-- Of two writers of `F` that depend on nothing the later one is moved before the earlier one, for
the sake of a rule above them that reads the other field it writes. And no order whatever brings all
dependencies first and keeps both of two pairs of rivals, where the first of each pair depends on
the second of the other. -/
theorem later_rival_moved :
    let s : RuleSet := { entries := [("r", { actions := [.copy "Y" "${G}"] }),
      ("u", { actions := [.copy "F" "1"] }), ("v", { actions := [.copy "F" "2", .copy "G" "1"] })] }
    let t : RuleSet := { entries := [("a", { actions := [.copy "F" "${H}"] }),
      ("b", { actions := [.copy "G" "${K}"] }),
      ("c", { actions := [.copy "G" "1", .copy "H" "1"] }),
      ("d", { actions := [.copy "F" "1", .copy "K" "1"] })] }
    (Rivals s.rules 1 2 ∧ s.ids = ["r", "u", "v"] ∧
      ∃ s1, s.resolveRules = .ok s1 ∧ s1.ids = ["v", "r", "u"]) ∧
    (∃ t1, t.resolveRules = .ok t1) ∧ Rivals t.rules 0 3 ∧ Rivals t.rules 1 2 ∧
      ∀ order : List ℕ,
        (∀ i j, Depends Rule.dependsOn t.rules i j → order.idxOf j < order.idxOf i) →
          ¬ (order.idxOf 0 < order.idxOf 3 ∧ order.idxOf 1 < order.idxOf 2) := by
  intro s t
  refine ⟨?_, ?_⟩
  · have hs : s.resolveRules = .ok _ := RuleSet.resolveRules_eq_ok.mpr ⟨by decide +kernel, rfl⟩
    have hu : WritesAt s.rules "F" 1 := ⟨_, rfl, by decide +kernel⟩
    have hv : WritesAt s.rules "F" 2 := ⟨_, rfl, by decide +kernel⟩
    have hrivals : Rivals s.rules 1 2 := ⟨rfl, ⟨"F", by decide, hu, hv⟩,
      not_transGen_of_closed [] (by decide +kernel) (by decide),
      not_transGen_of_closed [] (by decide +kernel) (by decide)⟩
    exact ⟨hrivals, rfl, _, hs, by decide +kernel⟩
  · have ht : t.resolveRules = .ok _ := RuleSet.resolveRules_eq_ok.mpr ⟨by decide +kernel, rfl⟩
    have hfirst : Rivals t.rules 0 3 :=
      ⟨rfl, ⟨"F", by decide, ⟨_, rfl, by decide +kernel⟩, ⟨_, rfl, by decide +kernel⟩⟩,
        not_transGen_of_closed [2] (by decide +kernel) (by decide),
        not_transGen_of_closed [] (by decide +kernel) (by decide)⟩
    have hsecond : Rivals t.rules 1 2 :=
      ⟨rfl, ⟨"G", by decide, ⟨_, rfl, by decide +kernel⟩, ⟨_, rfl, by decide +kernel⟩⟩,
        not_transGen_of_closed [3] (by decide +kernel) (by decide),
        not_transGen_of_closed [] (by decide +kernel) (by decide)⟩
    refine ⟨⟨_, ht⟩, hfirst, hsecond, fun order hdependencies hkept => ?_⟩
    have hac : order.idxOf 2 < order.idxOf 0 :=
      hdependencies 0 2 ((DependencyGraph.ofItems_dependsOn _ _ 0 2).mp (by decide +kernel))
    have hbd : order.idxOf 3 < order.idxOf 1 :=
      hdependencies 1 3 ((DependencyGraph.ofItems_dependsOn _ _ 1 3).mp (by decide +kernel))
    omega

end EventRules

import EventRules.Proofs.Dependency.Resolution

/-! The fields that are named when rules depend on each other in a circle. Each of them ties two of
the rules that are named with it; but ties are looked for without regard to the groups of the rules,
so a field may be named that plays a part only between rules that do not depend on each other. -/
namespace EventRules

namespace Rule

variable {rules : List Rule} {f : String}

/-- The rule at the first place has an action that writes the field and ties it to the rule at the
second one: this is another rule and reads the field, or it writes what the action reads. -/
def Tied (rules : List Rule) (f : String) (i j : Fin rules.length) : Prop :=
  ∃ x ∈ rules[i].actions, x.field = f ∧
    (j ≠ i ∧ Text.references rules[j].sources f ∨ ∃ y ∈ rules[j].actions, x.dependsOn y)

instance (i j : Fin rules.length) : Decidable (Tied rules f i j) :=
  inferInstanceAs (Decidable (∃ x ∈ rules[i].actions, _))

/-- The field ties rules that may depend on each other. -/
def Admitted (rules : List Rule) (f : String) : Prop :=
  ∃ i j, Tied rules f i j ∧ ¬ rules[j].inOtherGroup rules[i]

instance : Decidable (Admitted rules f) :=
  inferInstanceAs (Decidable (∃ i j, Tied rules f i j ∧ ¬ rules[j].inOtherGroup rules[i]))

/-- The field ties rules of different groups alone. -/
def Stray (rules : List Rule) (f : String) : Prop :=
  ∀ i j, Tied rules f i j → rules[j].inOtherGroup rules[i]

/-- The field is written by an action from which a cycle among all actions of the rules is
reached. -/
def OfActionCycle (rules : List Rule) (f : String) : Prop :=
  ∃ k, LeadsToCycle (Depends Action.dependsOn (rules.flatMap actions)) k ∧
    ∃ x, (rules.flatMap actions)[k]? = some x ∧ x.field = f

/-- The field is read by one of the rules from another. -/
def ReadAcross (rules : List Rule) (f : String) : Prop :=
  ∃ i j : Fin rules.length, j ≠ i ∧ f ∈ rules[j].fieldsReadFrom rules[i]

theorem mem_cycleFields : f ∈ cycleFields rules ↔ f ≠ "" ∧ (OfActionCycle rules f ∨
    (∀ k, ¬ OnCycle (Depends Action.dependsOn (rules.flatMap actions)) k) ∧
      ReadAcross rules f) := by
  have hnil := unresolvable_eq_nil_iff Action.dependsOn (rules.flatMap actions)
  cases hu : (DependencyGraph.ofItems Action.dependsOn (rules.flatMap actions)).unresolvable with
  | nil =>
    have hcycle := hnil.mp hu
    have hnone : ¬ OfActionCycle rules f := by
      rintro ⟨-, ⟨k, -, hk⟩, -⟩
      exact hcycle k hk
    have hread : f ∈ (rules.zipIdx.flatMap fun r => rules.zipIdx.flatMap fun other =>
        if r.2 = other.2 then [] else r.1.fieldsReadFrom other.1) ↔ ReadAcross rules f := by
      simp only [List.mem_flatMap, Prod.exists, List.mem_zipIdx_iff_getElem?]
      constructor
      · rintro ⟨r, j, hr, other, i, hother, hf⟩
        obtain ⟨hj, rfl⟩ := List.getElem?_eq_some_iff.mp hr
        obtain ⟨hi, rfl⟩ := List.getElem?_eq_some_iff.mp hother
        by_cases hij : j = i
        · simp [hij] at hf
        · exact ⟨⟨i, hi⟩, ⟨j, hj⟩, by simpa using hij, by simpa [hij] using hf⟩
      · rintro ⟨i, j, hne, hf⟩
        refine ⟨_, j, List.getElem?_eq_getElem j.2, _, i, List.getElem?_eq_getElem i.2, ?_⟩
        rwa [if_neg (by simpa [Fin.ext_iff] using hne)]
    simp only [cycleFields, hu, mem_distinctFields, hread, hnone, hcycle]
    tauto
  | cons k rest =>
    have hsome : ¬ ∀ k, ¬ OnCycle (Depends Action.dependsOn (rules.flatMap actions)) k :=
      hnil.not.mp (by simp [hu])
    have hfield : f ∈ (pick (rules.flatMap actions) (k :: rest)).map Action.field ↔
        OfActionCycle rules f := by
      simp only [List.mem_map, mem_pick, ← hu, mem_unresolvable, OfActionCycle]
      grind
    simp only [cycleFields, hu, mem_distinctFields, hfield]
    tauto

/-- A field that is named ties rules that are named. -/
theorem exists_tied (h : f ∈ cycleFields rules) : ∃ i j, Tied rules f i j := by
  obtain ⟨-, hcycle | ⟨-, hread⟩⟩ := mem_cycleFields.mp h
  · obtain ⟨k, hk, x, hx, rfl⟩ := hcycle
    obtain ⟨l, ⟨-, x', hx', y, hy, hxy⟩, -⟩ := hk.exists_dependency
    obtain rfl : x = x' := Option.some.inj (hx.symm.trans hx')
    obtain ⟨s, hs, hxs⟩ := List.mem_flatMap.mp (List.mem_of_getElem? hx)
    obtain ⟨r, hr, hyr⟩ := List.mem_flatMap.mp (List.mem_of_getElem? hy)
    obtain ⟨i, hi, rfl⟩ := List.mem_iff_getElem.mp hs
    obtain ⟨j, hj, rfl⟩ := List.mem_iff_getElem.mp hr
    exact ⟨⟨i, hi⟩, ⟨j, hj⟩, x, hxs, rfl, .inr ⟨y, hyr, hxy⟩⟩
  · obtain ⟨i, j, hne, hf⟩ := hread
    obtain ⟨⟨x, hx, hfield⟩, href⟩ := mem_fieldsReadFrom.mp hf
    exact ⟨i, j, x, hx, hfield, .inl ⟨hne, href⟩⟩

/-- A field that is named ties rules that may depend on each other, or else ties some rules, and
all of them are in different groups. -/
theorem admitted_or_stray (h : f ∈ cycleFields rules) :
    Admitted rules f ∨ (∃ i j, Tied rules f i j) ∧ Stray rules f := by
  by_cases hadmitted : Admitted rules f
  · exact .inl hadmitted
  · refine .inr ⟨exists_tied h, fun i j htied => ?_⟩
    by_contra hgroup
    exact hadmitted ⟨i, j, htied, hgroup⟩

/-- A field through which a rule depends on another one is admitted. -/
theorem admitted_of_dependsOn {i j : Fin rules.length} (hne : j ≠ i)
    (h : rules[j].dependsOn rules[i]) (hf : f ∈ rules[j].fieldsReadFrom rules[i]) :
    Admitted rules f := by
  obtain ⟨⟨x, hx, hfield⟩, href⟩ := mem_fieldsReadFrom.mp hf
  simp only [dependsOn, Bool.and_eq_true, Bool.not_eq_true'] at h
  exact ⟨i, j, ⟨x, hx, hfield, .inl ⟨hne, href⟩⟩, by simpa using h.1⟩

end Rule

/-- What is left by the elimination depends on more of it. -/
theorem exists_depends_pick {α : Type} {relation : α → α → Bool} {items : List α} {k : ℕ} :
    let left := pick items (DependencyGraph.ofItems relation items).unresolvable
    k < left.length → ∃ l, Depends relation left k l := by
  intro left hk
  let g := DependencyGraph.ofItems relation items
  have hlt : ∀ i ∈ g.unresolvable, i < items.length := fun i hi => by
    simpa [g, DependencyGraph.mem_items] using g.unresolvable_sublist.subset hi
  have hnodup : g.unresolvable.Nodup := g.unresolvable_ascending.imp Nat.ne_of_lt
  -- from the place of an item among what is left to its own place, and back for its dependency
  obtain ⟨a, ha, -⟩ : ∃ a, g.unresolvable[k]? = some a ∧ items[a]? = some left[k] := by
    rw [← Option.bind_eq_some_iff, ← getElem?_pick items hlt]
    exact List.getElem?_eq_getElem hk
  have hleads := (mem_unresolvable relation items a).mp (List.mem_of_getElem? ha)
  obtain ⟨b, hab, hb⟩ := hleads.exists_dependency
  obtain ⟨l, hl⟩ := List.mem_iff_getElem?.mp ((mem_unresolvable relation items b).mpr hb)
  exact ⟨l, (depends_pick hlt hnodup ha hl).mpr hab⟩

/-- The fields of an error about rules, for any ruleset that is refused: which they are, and what
they tie. A field ties two named rules that may depend on each other, unless all rules that it ties
are in different groups; and where no cycle of actions takes the place of the fields that the rules
read, each named rule reads one of them from a named rule on which it depends. -/
theorem cycle_fields_exact {s : RuleSet} {problem : Problem} (h : s.resolveRules = .error problem) :
    let named := pick s.rules s.ruleGraph.unresolvable
    ∃ fields, problem = .ruleCycle (pick s.ids s.ruleGraph.unresolvable) fields ∧
      (∀ f, f ∈ fields ↔ f ≠ "" ∧ (Rule.OfActionCycle named f ∨
        (∀ k, ¬ OnCycle (Depends Action.dependsOn (named.flatMap Rule.actions)) k) ∧
          Rule.ReadAcross named f)) ∧
      (∀ f ∈ fields, Rule.Admitted named f ∨
        (∃ i j, Rule.Tied named f i j) ∧ Rule.Stray named f) ∧
      ((∀ r ∈ named, ∀ other ∈ named, ¬ r.inOtherGroup other) →
        ∀ f ∈ fields, Rule.Admitted named f) ∧
      ((∀ k, ¬ OnCycle (Depends Action.dependsOn (named.flatMap Rule.actions)) k) →
        ∀ j : Fin named.length, ∃ i, j ≠ i ∧ named[j].dependsOn named[i] ∧
          ∃ f ∈ fields, f ∈ named[j].fieldsReadFrom named[i] ∧ Rule.Admitted named f) := by
  intro named
  obtain ⟨-, rfl⟩ := RuleSet.resolveRules_eq_error.mp h
  rw [RuleSet.pick_rules]
  refine ⟨Rule.cycleFields named, ?_, fun f => Rule.mem_cycleFields,
    fun f hf => Rule.admitted_or_stray hf, fun hgroups f hf => ?_, fun hcycle j => ?_⟩
  · simp [Ordered.keys, RuleSet.ids, pick, List.map_filterMap, named]
  · obtain ⟨i, j, htied⟩ := Rule.exists_tied hf
    exact ⟨i, j, htied, hgroups _ (List.getElem_mem j.2) _ (List.getElem_mem i.2)⟩
  · obtain ⟨i, hne, r, hr, other, hother, hdep⟩ := exists_depends_pick j.2
    obtain ⟨hj, rfl⟩ := List.getElem?_eq_some_iff.mp hr
    obtain ⟨hi, rfl⟩ := List.getElem?_eq_some_iff.mp hother
    have hne' : j ≠ ⟨i, hi⟩ := fun heq => hne (by rw [heq])
    obtain ⟨f, hf, hfne⟩ := Rule.exists_field_of_dependsOn hdep
    have hmem : f ∈ Rule.cycleFields named :=
      Rule.mem_cycleFields.mpr ⟨hfne, .inr ⟨hcycle, ⟨i, hi⟩, j, hne', hf⟩⟩
    exact ⟨⟨i, hi⟩, hne', hdep, f, hmem, hf, Rule.admitted_of_dependsOn hne' hdep hf⟩

/-- Two rules of one group of which each reads in its condition what the other one writes. -/
theorem cycle_fields_exact_circle :
    let rule (writes reads : String) : Rule :=
      { groupId := some "g", actions := [.copy writes "1"],
        condition := some (.comparison ⟨{}, reads, "equals", ["1"]⟩) }
    let s : RuleSet := { entries := [("u", rule "X" "${Y}"), ("v", rule "Y" "${X}")] }
    s.resolveRules = .error (.ruleCycle ["u", "v"] ["Y", "X"]) ∧
      ∀ f ∈ ["Y", "X"], Rule.Admitted (pick s.rules s.ruleGraph.unresolvable) f := by
  intro rule s
  have hs : s.resolveRules = .error (.ruleCycle ["u", "v"] ["Y", "X"]) :=
    RuleSet.resolveRules_eq_error.mpr ⟨by decide +kernel, by decide +kernel⟩
  obtain ⟨fields, hproblem, -, -, hgroups, -⟩ := cycle_fields_exact hs
  obtain ⟨-, rfl⟩ : _ ∧ ["Y", "X"] = fields := by simpa using hproblem
  exact ⟨hs, hgroups (by decide +kernel)⟩

/-- Two circles in two groups: a rule of the second reads `Q`, which a rule of the first writes. It
is named with the fields of both circles, though no rule that may depend on another has to do with
it. -/
theorem cycle_fields_cross_groups :
    let comparison (reads value : String) : Condition :=
      .comparison ⟨{}, reads, "equals", [value]⟩
    let s : RuleSet := { entries := [
      ("r1", { groupId := some "g", actions := [.copy "X" "1", .copy "Q" "1"],
               condition := some (comparison "${Y}" "1") }),
      ("r2", { groupId := some "g", actions := [.copy "Y" "1"],
               condition := some (comparison "${X}" "1") }),
      ("r3", { groupId := some "h", actions := [.copy "W" "1"],
               condition := some (comparison "${Z}" "${Q}") }),
      ("r4", { groupId := some "h", actions := [.copy "Z" "1"],
               condition := some (comparison "${W}" "1") })] }
    s.resolveRules = .error (.ruleCycle ["r1", "r2", "r3", "r4"] ["Y", "X", "Q", "Z", "W"]) ∧
      ¬ ∀ f ∈ ["Y", "X", "Q", "Z", "W"],
        Rule.Admitted (pick s.rules s.ruleGraph.unresolvable) f := by
  intro comparison s
  exact ⟨RuleSet.resolveRules_eq_error.mpr ⟨by decide +kernel, by decide +kernel⟩,
    by decide +kernel⟩

end EventRules

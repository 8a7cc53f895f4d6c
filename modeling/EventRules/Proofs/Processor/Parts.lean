import EventRules.Proofs.Check.Additive
import EventRules.Proofs.Ordered
import EventRules.Processor

/-! The parts of a translation: maximal runs of assignments, each of which may become one processor
or one for each assignment, and the processors of the other actions. -/
namespace EventRules

theorem map_eq_ok {ε α β : Type} {x : Except ε α} {f : α → β} {b : β} :
    x.map f = .ok b ↔ ∃ a, x = .ok a ∧ f a = b := by
  cases x <;> simp [Except.map]

theorem TopologySearch.exists_filter_of_processor {s : TopologySearch} {p : Processor}
    (h : s.processor = .ok p) : ∃ filter, p = .searchTopology s.field s.value filter s.outcome := by
  rw [processor] at h
  split at h
  next => exact ⟨none, (Except.ok.inj h).symm⟩
  next =>
    obtain ⟨filter, -, rfl⟩ := map_eq_ok.mp h
    exact ⟨some filter, rfl⟩

/-- A run of assignments, each a target with an expression, or the processor of another action. -/
inductive Part where
  | run (assignments : List (String × String))
  | own (processor : Processor)

namespace Part

/-- The one processor of a part. -/
def merged : Part → Processor
  | .run assignments => .set (Ordered.ofPairs assignments)
  | .own processor => processor

/-- The processors of a part, one for each of its actions. -/
def single : Part → List Processor
  | .run assignments => assignments.map fun assignment => .set [assignment]
  | .own processor => [processor]

/-- Put assignments before some parts, into the run with which they begin if there is one. -/
def prepend (done : List (String × String)) : List Part → List Part
  | .run assignments :: others => .run (done ++ assignments) :: others
  | others => .run done :: others

@[simp] theorem prepend_prepend (done more : List (String × String)) (parts : List Part) :
    prepend done (prepend more parts) = prepend (done ++ more) parts := by
  cases parts with
  | nil => rfl
  | cons part others => cases part <;> simp [prepend]

@[simp] theorem single_prepend (assignment : String × String) (parts : List Part) :
    (prepend [assignment] parts).flatMap single = .set [assignment] :: parts.flatMap single := by
  cases parts with
  | nil => rfl
  | cons part others => cases part <;> simp [prepend, single]

end Part

namespace Action

/-- The parts of a list of actions. -/
def parts : List Action → Except FilterFault (List Part)
  | [] => .ok []
  | a :: rest =>
    match a.assignment? with
    | some assignment => (parts rest).map (Part.prepend [assignment])
    | none =>
      match a.processor with
      | .error fault => .error fault
      | .ok own => (parts rest).map (Part.own own :: ·)

theorem processor_of_assignment {a : Action} {assignment : String × String}
    (h : a.assignment? = some assignment) : a.processor = .ok (.set [assignment]) := by
  cases heffect : a.effect with
  | copy source =>
    cases hp : source.pattern? with
    | none => simp_all [assignment?, processor]
    | some regex => simp [assignment?, heffect, hp] at h
  | concat source => simp_all [assignment?, processor]
  | _ => simp [assignment?, heffect] at h

theorem map_map_except {ε α β γ : Type} (f : α → β) (g : β → γ) (x : Except ε α) :
    (x.map f).map g = x.map fun a => g (f a) := by
  cases x <;> rfl

/-- A run that is open goes on with the assignments that come next. -/
theorem processorsAfter_open (done : List (String × String)) (actions : List Action) :
    processorsAfter (some (Ordered.ofPairs done)) actions =
      (parts actions).map (fun ps => (Part.prepend done ps).map Part.merged) ∧
    processorsAfter none actions = (parts actions).map (List.map Part.merged) := by
  induction actions generalizing done with
  | nil => simp [processorsAfter, parts, closeRun, Part.prepend, Part.merged, Except.map]
  | cons a rest ih =>
    cases ha : a.assignment? with
    | some assignment =>
      have hdone := (ih (done ++ [assignment])).1
      have hnone := (ih [assignment]).1
      rw [Ordered.ofPairs_concat] at hdone
      simp only [processorsAfter, parts, ha, map_map_except, Part.prepend_prepend]
      exact ⟨hdone, hnone⟩
    | none =>
      simp only [processorsAfter, parts, ha, (ih []).2]
      cases a.processor with
      | error fault => exact ⟨rfl, rfl⟩
      | ok own =>
        simp only [map_map_except]
        exact ⟨rfl, rfl⟩

/-- Translated together, each part of the actions gives one processor. -/
theorem processors_eq_parts (actions : List Action) :
    processors actions = (parts actions).map (List.map Part.merged) :=
  (processorsAfter_open [] actions).2

/-- Translated one by one, the actions give the processors of all parts. -/
theorem mapM_processor_eq_parts (actions : List Action) :
    actions.mapM processor = (parts actions).map (List.flatMap Part.single) := by
  induction actions with
  | nil => rfl
  | cons a rest ih =>
    rw [List.mapM_cons, ih]
    cases ha : a.assignment? with
    | some assignment =>
      simp only [parts, ha, processor_of_assignment ha]
      cases parts rest <;> simp [Except.map, bind, Except.bind, pure, Except.pure]
    | none =>
      simp only [parts, ha]
      cases a.processor with
      | error fault => rfl
      | ok own =>
        cases parts rest <;> simp [Except.map, bind, Except.bind, pure, Except.pure, Part.single]

/-- The filter of an accepted search is checked together with it. -/
theorem exists_searchFilter {a : Action} (h : a.check.accepts) {search : TopologySearch}
    (heffect : a.effect = .searchTopology search) {c : Comparison}
    (hc : search.activeFilter? = some c) : ∃ f, c.filter = .ok f := by
  have heff := checkEffect_of_accepts h
  rw [checkEffect, heffect] at heff
  have hfilter := (Check.accepts_all (a.checkSearch_parts search)).mp heff
    ((search.activeFilter?.map Comparison.check).getD Check.pass) (by simp)
  rw [hc] at hfilter
  obtain ⟨op, hop⟩ := Option.isSome_iff_exists.mp (c.operator?_isSome_of_accepts hfilter)
  exact ⟨c.filterWith op, by rw [Comparison.filter, hop]⟩

/-- An accepted action has a processor. -/
theorem exists_processor {a : Action} (h : a.check.accepts) : ∃ p, a.processor = .ok p := by
  cases heffect : a.effect with
  | copy source => cases hp : source.pattern? <;> simp [processor, heffect, hp]
  | searchTopology search =>
    simp only [processor, heffect, TopologySearch.processor]
    cases hc : search.activeFilter? with
    | none => simp
    | some c =>
      obtain ⟨f, hf⟩ := exists_searchFilter h heffect hc
      simp [hf, Except.map]
  | _ => simp [processor, heffect]

theorem exists_parts {actions : List Action} (h : ∀ a ∈ actions, a.check.accepts) :
    ∃ ps, parts actions = .ok ps := by
  induction actions with
  | nil => exact ⟨[], rfl⟩
  | cons a rest ih =>
    obtain ⟨ps, hps⟩ := ih fun b hb => h b (by simp [hb])
    obtain ⟨own, hown⟩ := exists_processor (h a (by simp))
    cases ha : a.assignment? <;> simp [parts, ha, hps, hown, Except.map]

theorem exists_processors {actions : List Action} (h : ∀ a ∈ actions, a.check.accepts) :
    ∃ ps, processors actions = .ok ps := by
  obtain ⟨ps, hps⟩ := exists_parts h
  exact ⟨ps.map Part.merged, by rw [processors_eq_parts, hps]; rfl⟩

end Action
end EventRules

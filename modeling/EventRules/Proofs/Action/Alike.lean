import EventRules.Proofs.Condition.Alike
import EventRules.Proofs.Processor.Parts

/-! Actions that differ in their identity, in how the name of their kind is written and in the
comparison of a search. They read and write the same, are accepted together, and become the same
processors. -/
namespace EventRules

open Check

namespace TopologySearch

variable {s : TopologySearch} {filter : Option Comparison}
  (h : Option.Rel Comparison.Alike s.filter filter)
include h

theorem activeFilter?_alike :
    Option.Rel Comparison.Alike s.activeFilter? { s with filter }.activeFilter? := by
  show Option.Rel _ (s.filter.filter fun c => !c.isBlank) (filter.filter fun c => !c.isBlank)
  revert h
  generalize s.filter = own
  rintro (hcd | _)
  · rw [Option.filter_some, Option.filter_some, hcd.isBlank_eq]
    split
    · exact .some hcd
    · exact .none
  · exact .none

theorem processor_eq_ok {p : Processor} :
    s.processor = .ok p ↔ { s with filter }.processor = .ok p := by
  have houtcome : { s with filter }.outcome = s.outcome := rfl
  have hactive := activeFilter?_alike h
  revert hactive
  rw [processor, processor, houtcome]
  generalize s.activeFilter? = own
  generalize { s with filter }.activeFilter? = other
  rintro (hcd | _)
  · simp only [map_eq_ok, hcd.filter_eq_ok]
  · rfl

end TopologySearch

/-- The effects are the same, but for the comparisons of searches. -/
inductive Effect.Alike : Effect → Effect → Prop
  | same (effect : Effect) : Alike effect effect
  | search {s : TopologySearch} {filter : Option Comparison}
    (h : Option.Rel Comparison.Alike s.filter filter) :
    Alike (.searchTopology s) (.searchTopology { s with filter })

namespace Effect.Alike

variable {e e' : Effect} (h : e.Alike e')
include h

theorem kind_eq : e.kind = e'.kind := by
  cases h <;> rfl

theorem sources_eq : e.sources = e'.sources := by
  cases h with
  | same => rfl
  | @search s filter h =>
    have hfilter := map_eq_of_rel h fun _ _ hcd => Comparison.Alike.sources_eq hcd
    show s.value :: (s.filter.map Comparison.sources).getD [] = _
    rw [hfilter]
    rfl

end Effect.Alike

namespace Action

theorem requireField_agrees (a b : Action) (value field : String) :
    (a.requireField value field).Agrees (b.requireField value field) :=
  agrees_require rfl

theorem checkEntries_agrees (a b : Action) (entries : List KeyValue) :
    (a.checkEntries entries).Agrees (b.checkEntries entries) :=
  (agrees_require rfl).both (agrees_require rfl)

theorem checkTable_agrees (a b : Action) (table : ValueTable) :
    (a.checkTable table).Agrees (b.checkTable table) := by
  refine .both ?_ (agrees_require rfl)
  split
  · exact agrees_require rfl
  · exact checkEntries_agrees a b table.entries

theorem checkOutcome_agrees (a b : Action) (s : TopologySearch) :
    (a.checkOutcome s).Agrees (b.checkOutcome s) := by
  rw [checkOutcome, checkOutcome]
  split
  · exact agrees_require rfl
  · split
    · exact agrees_report
    · exact checkEntries_agrees a b s.updates

theorem checkSearch_agrees (a b : Action) {s : TopologySearch} {filter : Option Comparison}
    (h : Option.Rel Comparison.Alike s.filter filter) :
    (a.checkSearch s).Agrees (b.checkSearch { s with filter }) := by
  have hfilter := agrees_option (fun _ _ hcd => Comparison.Alike.check_agrees hcd)
    (s.activeFilter?_alike h)
  apply agrees_all
  exact .cons (requireField_agrees a b _ _) (.cons (requireField_agrees a b _ _)
    (.cons hfilter (.cons (checkOutcome_agrees a b s) .nil)))

/-- The actions write the same field and have the same effect. Their identities and the spelling of
their kinds are free. -/
structure Alike (a b : Action) : Prop where
  target : a.target = b.target
  effect : a.effect.Alike b.effect

theorem alike_of_spelling (id id' : Option String) (name name' target : String) (effect : Effect) :
    (⟨id, name, target, effect⟩ : Action).Alike ⟨id', name', target, effect⟩ where
  target := rfl
  effect := .same effect

namespace Alike

variable {a b : Action} (h : a.Alike b)
include h

theorem field_eq : a.field = b.field := congrArg Text.stripField h.target

theorem sources_eq : a.sources = b.sources := h.effect.sources_eq

theorem checkTarget_agrees : a.checkTarget.Agrees b.checkTarget := by
  apply agrees_require
  unfold Action.kind targetFilled
  rw [h.target, h.effect.kind_eq]

theorem checkEffect_agrees : a.checkEffect.Agrees b.checkEffect := by
  obtain ⟨id, name, target, effect⟩ := a
  obtain ⟨id', name', target', effect'⟩ := b
  obtain ⟨-, heffect⟩ := h
  cases heffect with
  | search h => exact checkSearch_agrees _ _ h
  | same =>
    cases effect with
    | map source table => exact (requireField_agrees _ _ _ _).both (checkTable_agrees _ _ table)
    | formatDate source format =>
      apply agrees_all
      exact .cons (requireField_agrees _ _ _ _) (.cons (requireField_agrees _ _ _ _)
        (.cons (requireField_agrees _ _ _ _) (.cons (requireField_agrees _ _ _ _)
          (.cons (requireField_agrees _ _ _ _) .nil))))
    | replaceText source replacement =>
      apply agrees_all
      exact .cons (requireField_agrees _ _ _ _) (.cons (requireField_agrees _ _ _ _)
        (.cons (requireField_agrees _ _ _ _) .nil))
    | changeCase change =>
      exact (requireField_agrees _ _ _ _).both (requireField_agrees _ _ _ _)
    | searchTopology search =>
      have hfilter : Option.Rel Comparison.Alike search.filter search.filter := by
        cases search.filter with
        | none => exact .none
        | some c => exact .some ⟨rfl, rfl, rfl, rfl⟩
      exact checkSearch_agrees _ _ hfilter
    | _ => exact agrees_require rfl

theorem check_agrees : a.check.Agrees b.check := h.checkTarget_agrees.both h.checkEffect_agrees

theorem assignment?_eq : a.assignment? = b.assignment? := by
  obtain ⟨id, name, target, effect⟩ := a
  obtain ⟨id', name', target', effect'⟩ := b
  obtain ⟨rfl, heffect⟩ := h
  cases heffect <;> rfl

theorem processor_eq_ok {p : Processor} : a.processor = .ok p ↔ b.processor = .ok p := by
  obtain ⟨id, name, target, effect⟩ := a
  obtain ⟨id', name', target', effect'⟩ := b
  obtain ⟨rfl, heffect⟩ := h
  cases heffect with
  | same => rfl
  | @search s filter h => exact s.processor_eq_ok h

end Alike

variable {as bs : List Action}

theorem parts_cons_eq_ok {a : Action} {rest : List Action} (ha : a.assignment? = none)
    {ps : List Part} : parts (a :: rest) = .ok ps ↔
      ∃ own others, a.processor = .ok own ∧ parts rest = .ok others ∧ .own own :: others = ps := by
  rw [parts, ha]
  cases a.processor with
  | error fault => simp
  | ok own => simp [map_eq_ok]

theorem parts_eq_ok (h : List.Forall₂ Alike as bs) {ps : List Part} :
    parts as = .ok ps ↔ parts bs = .ok ps := by
  induction h generalizing ps with
  | nil => rfl
  | @cons a b _ _ hab _ ih =>
    cases hb : b.assignment? with
    | some assignment => simp only [parts, hab.assignment?_eq, hb, map_eq_ok, ih]
    | none =>
      rw [parts_cons_eq_ok (hab.assignment?_eq.trans hb), parts_cons_eq_ok hb]
      simp only [hab.processor_eq_ok, ih]

theorem processors_eq_ok (h : List.Forall₂ Alike as bs) {ps : List Processor} :
    processors as = .ok ps ↔ processors bs = .ok ps := by
  rw [processors_eq_parts, processors_eq_parts, map_eq_ok, map_eq_ok]
  simp only [parts_eq_ok h]

theorem dependsOn_eq {a b a' b' : Action} (h : a.Alike b) (h' : a'.Alike b') :
    a.dependsOn a' = b.dependsOn b' := by
  unfold dependsOn
  rw [h.sources_eq, h'.field_eq]

end Action

end EventRules

import EventRules.Proofs.Action.Tables
import EventRules.Proofs.Processor.Runs

/-! The keys in filters and processors. Most of them are fixed names; those of updates and of tables
come from the actions, and are filled and different where these are accepted. So in none of the
objects two keys become equal when the sentinel is read. -/
namespace EventRules

open Json

namespace Filter

theorem kept_of_fields {f : Filter} (h : ∀ e ∈ f.fields, e.2.Kept) : f.toJson.Kept := by
  rw [toJson_eq, kept_object]
  exact ⟨f.plainKeys.keysStay, h⟩

mutual

theorem kept : (f : Filter) → f.toJson.Kept
  | .group _ members => kept_of_fields (by simpa [fields] using all_kept members)
  | .text .. => kept_of_fields (by simp [fields])
  | .single .. => kept_of_fields (by simp [fields])
  | .many .. => kept_of_fields (by simp [fields])
  | .presence .. => kept_of_fields (by simp [fields])

theorem all_kept : (members : List Filter) → ∀ v ∈ listToJson members, v.Kept
  | [] => by simp [listToJson]
  | f :: rest => by simpa [listToJson] using ⟨kept f, all_kept rest⟩

end

end Filter

namespace Processor

/-- The keys that the processor has from actions are filled and different. -/
def Tidy : Processor → Prop
  | .set updates => FilledKeys updates
  | .mapValues table _ _ _ => FilledKeys table
  | .searchTopology _ _ _ (.update updates) => FilledKeys updates
  | _ => True

theorem tidy_searchTopology {field value : String} {filter : Option Filter}
    {outcome : SearchOutcome} : (searchTopology field value filter outcome).Tidy ↔
      ∀ updates, outcome = .update updates → FilledKeys updates := by
  cases outcome <;> simp [Tidy]

theorem kept_tableToJson {table : List (String × String)} (h : FilledKeys table) :
    (tableToJson table).Kept :=
  kept_object.mpr ⟨h.keysStay Json.text, List.forall_mem_map.mpr fun _ _ => kept_text _⟩

theorem kept_updates {updates : List (String × UpdateValue)} (h : FilledKeys updates) :
    (Json.object (updates.map fun entry => (entry.1, entry.2.toJson))).Kept := by
  refine kept_object.mpr ⟨h.keysStay UpdateValue.toJson, List.forall_mem_map.mpr fun entry _ => ?_⟩
  cases entry.2 <;> simp [UpdateValue.toJson]

theorem kept {p : Processor} (h : p.Tidy) : p.toJson.Kept := by
  rw [toJson_eq, kept_object]
  refine ⟨p.plainKeys.keysStay, ?_⟩
  cases p with
  | set updates => simp [fields, members, kept_tableToJson h]
  | mapValues table field toField default =>
    cases default <;> simp [fields, members, kept_tableToJson h]
  | searchTopology field value filter outcome =>
    cases outcome with
    | update updates =>
      have hupdates := kept_updates h
      cases filter <;> simp [fields, members, hupdates, Filter.kept]
    | enrich names start => cases filter <;> simp [fields, members, Filter.kept]
  | _ => simp [fields, members]

end Processor

namespace Action

variable {a : Action} {actions run : List Action} {p : Processor} {ps : List Processor}

/-- The target of an accepted assignment is not empty. -/
theorem target_ne_empty (h : a.check.accepts) (ha : a.assigns) : a.target ≠ "" := by
  refine (target_of_accepts h ?_).1
  unfold assigns at ha
  cases heffect : a.effect <;> simp_all [kind, Effect.kind, ActionKind.allowsNoTarget]

theorem tidy_of_processor (h : a.check.accepts) (ha : ¬ a.assigns) (hp : a.processor = .ok p) :
    p.Tidy := by
  unfold processor at hp
  cases heffect : a.effect with
  | copy source =>
    obtain ⟨regex, hregex⟩ : ∃ regex, source.pattern? = some regex := by
      simpa [assigns, heffect, Option.ne_none_iff_exists'] using ha
    simp only [heffect, hregex, Except.ok.injEq] at hp
    subst hp
    exact True.intro
  | concat source => simp [assigns, heffect] at ha
  | map source table =>
    simp only [heffect, Except.ok.injEq] at hp
    subst hp
    exact (texts_of_accepts h heffect).2
  | hpMetric selected =>
    simp only [heffect, Except.ok.injEq] at hp
    subst hp
    exact ⟨by simp, by simp⟩
  | searchTopology search =>
    rw [heffect] at hp
    obtain ⟨filter, rfl⟩ := TopologySearch.exists_filter_of_processor hp
    rw [Processor.tidy_searchTopology]
    intro updates hupdates
    rw [TopologySearch.outcome] at hupdates
    split at hupdates
    next => simp at hupdates
    next hmode =>
      obtain rfl := SearchOutcome.update.inj hupdates
      exact updates_of_accepts h heffect hmode
  | _ =>
    simp only [heffect, Except.ok.injEq] at hp
    subst hp
    exact True.intro

theorem tidy_of_becomes (h : ∀ a ∈ run, a.check.accepts) (hp : Becomes run p) : p.Tidy := by
  cases hp with
  | run hrun hkeys hlast =>
    -- the keys of a run are its distinct targets
    constructor
    · rw [hkeys]
      exact nodup_distinct _
    · rw [hkeys, mem_distinct]
      intro hempty
      obtain ⟨a, ha, htarget⟩ := List.mem_map.mp hempty
      exact target_ne_empty (h a ha) (hrun.2 a ha) htarget
  | other ha hp => exact tidy_of_processor (h _ (by simp)) ha hp

/-- Accepted actions give processors with filled and different keys, merged as they are. -/
theorem tidy_of_processors (h : ∀ a ∈ actions, a.check.accepts)
    (hps : processors actions = .ok ps) : ∀ p ∈ ps, p.Tidy := by
  obtain ⟨hflatten, hgroups, hapart⟩ := runs_spec actions
  rw [← hflatten, processors_flatten hgroups hapart] at hps
  intro p hp
  obtain ⟨group, hgroup, hbecomes⟩ := exists_of_forall₂ hps hp
  refine tidy_of_becomes (fun a ha => h a ?_) hbecomes
  rw [← hflatten]
  exact List.mem_flatten_of_mem hgroup ha

end Action

end EventRules

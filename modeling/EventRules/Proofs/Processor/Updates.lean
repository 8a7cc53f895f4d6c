import EventRules.Dependency.Resolution
import EventRules.Proofs.Ordered
import EventRules.Proofs.Processor.Parts
import EventRules.Proofs.Text.Reference

/-! What the processors of actions read and write in their updates, against what the relation
between actions knows of it. The relation goes by the sources and the target of an action; it does
not know the fields that come up when texts are joined, the updates of a search, and what an action
assigns to fields of its own choice. -/
namespace EventRules

/-- The fields that an assigned value reads. -/
def UpdateValue.reads : UpdateValue → List String
  | .text expression => Text.referencedFields expression
  | .flag _ => []

namespace Processor

/-- What the processor assigns to fields by their names. -/
def assignments : Processor → List (String × UpdateValue)
  | .set updates => updates.map fun u => (u.1, .text u.2)
  | .searchTopology _ _ _ (.update updates) => updates
  | _ => []

def updateReads (p : Processor) : List String := p.assignments.flatMap fun u => u.2.reads

def updateWrites (p : Processor) : List String := p.assignments.map fun u => Text.stripField u.1

variable {p : Processor} {f : String}

theorem referable_of_mem_updateReads (h : f ∈ p.updateReads) : Text.Referable f := by
  obtain ⟨⟨key, value⟩, -, hf⟩ := List.mem_flatMap.mp h
  cases value with
  | text expression => exact Text.referable_of_mem hf
  | flag value => simp [UpdateValue.reads] at hf

theorem trimmed_of_mem_updateWrites (h : f ∈ p.updateWrites) : Text.Trimmed f.toList := by
  obtain ⟨u, -, rfl⟩ := List.mem_map.mp h
  exact Text.trimmed_stripField u.1

end Processor

namespace TopologySearch

variable {s : TopologySearch}

theorem keys_updates (updates : List KeyValue) :
    Ordered.keys (updates.map fun e => (e.key, UpdateValue.text e.value)) =
      updates.map KeyValue.key := by
  simp [Ordered.keys]

/-- Where no key is repeated, a search assigns its updates, but for one to its own mark, and that
mark. -/
theorem mem_markedUpdates (h : (s.updates.map KeyValue.key).Nodup) {u : String × UpdateValue} :
    u ∈ s.markedUpdates ↔ u = ("isEnriched", .flag true) ∨
      ∃ e ∈ s.updates, e.key ≠ "isEnriched" ∧ u = (e.key, .text e.value) := by
  rw [← keys_updates] at h
  rw [markedUpdates, Ordered.mem_insert (Ordered.keys_ofPairs_nodup _), Ordered.ofPairs_eq_self h]
  simp only [List.mem_map]
  grind

theorem mem_reads_markedUpdates (h : (s.updates.map KeyValue.key).Nodup) {f : String} :
    f ∈ s.markedUpdates.flatMap (fun u => u.2.reads) ↔
      ∃ e ∈ s.updates, e.key ≠ "isEnriched" ∧ f ∈ Text.referencedFields e.value := by
  simp only [List.mem_flatMap, mem_markedUpdates h]
  constructor
  · rintro ⟨_, rfl | ⟨e, he, hkey, rfl⟩, hf⟩
    · simp [UpdateValue.reads] at hf
    · exact ⟨e, he, hkey, hf⟩
  · rintro ⟨e, he, hkey, hf⟩
    exact ⟨_, .inr ⟨e, he, hkey, rfl⟩, hf⟩

theorem mem_keys_markedUpdates {key : String} : key ∈ Ordered.keys s.markedUpdates ↔
    key = "isEnriched" ∨ ∃ e ∈ s.updates, e.key = key := by
  rw [markedUpdates, Ordered.mem_keys_insert, Ordered.mem_keys_ofPairs, keys_updates]
  simp [or_comm]

theorem mem_writes_markedUpdates {f : String} :
    f ∈ s.markedUpdates.map (fun u => Text.stripField u.1) ↔
      f = "isEnriched" ∨ ∃ e ∈ s.updates, Text.stripField e.key = f := by
  have hmark : Text.stripField "isEnriched" = "isEnriched" := by decide
  have hkeys : s.markedUpdates.map (fun u => Text.stripField u.1) =
      (Ordered.keys s.markedUpdates).map Text.stripField := by simp [Ordered.keys]
  rw [hkeys, List.mem_map]
  simp only [mem_keys_markedUpdates]
  constructor
  · rintro ⟨_, rfl | ⟨e, he, rfl⟩, rfl⟩
    · exact .inl hmark
    · exact .inr ⟨e, he, rfl⟩
  · rintro (rfl | ⟨e, he, rfl⟩)
    · exact ⟨_, .inl rfl, hmark⟩
    · exact ⟨_, .inr ⟨e, he, rfl⟩, rfl⟩

end TopologySearch

namespace Action

variable {a b : Action} {pa pb p : Processor} {f : String}

/-- The fields that the sources of the action read. -/
def reads (a : Action) : List String := a.sources.flatMap Text.referencedFields

theorem dependsOn_iff : a.dependsOn b ↔ b.field ∈ a.reads := Text.references_iff

/-- When the updates of the first action read a field that those of the second one assign, the first
action depends on the second. -/
def Seen (a b : Action) : Prop :=
  ∀ pa pb, a.processor = .ok pa → b.processor = .ok pb →
    ∀ f ∈ pa.updateReads, f ∈ pb.updateWrites → a.dependsOn b

/-- The fields that the updates of the action read and its sources do not: those that come up when
texts are joined, those of a selected metric, and those of the updates of a search. -/
def hiddenReads (a : Action) : List String :=
  match a.effect with
  | .concat source => (Text.referencedFields source.joined).filter (· ∉ a.reads)
  | .hpMetric selected => Text.referencedFields selected
  | .searchTopology search =>
    if search.enriches then []
    else ((search.updates.filter fun u => u.key ≠ "isEnriched").flatMap fun u =>
      Text.referencedFields u.value).filter (· ∉ a.reads)
  | _ => []

/-- The fields that the updates of the action assign besides its target. -/
def hiddenWrites (a : Action) : List String :=
  match a.effect with
  | .hpMetric _ => ["parserType"].filter (· ≠ a.field)
  | .searchTopology search =>
    if search.enriches then []
    else ("isEnriched" :: search.updates.map fun u => Text.stripField u.key).filter (· ≠ a.field)
  | _ => []

/-- The keys of an accepted search that assigns are distinct. -/
theorem nodup_updates (h : a.check.accepts) {search : TopologySearch}
    (heffect : a.effect = .searchTopology search) (hmode : ¬ search.enriches) :
    (search.updates.map KeyValue.key).Nodup := by
  have hentries := entries_of_accepts h
  rw [entries, heffect] at hentries
  simpa [hmode] using hentries.2

/-- What the action assigns, by its kind. -/
def assigned (a : Action) : List (String × UpdateValue) :=
  match a.effect with
  | .copy source =>
    match source.pattern? with
    | none => [(a.target, .text source.value)]
    | some _ => []
  | .concat source => [(a.target, .text source.joined)]
  | .hpMetric selected => [("parserType", .text selected)]
  | .searchTopology search => if search.enriches then [] else search.markedUpdates
  | _ => []

theorem assignments_of_processor (hp : a.processor = .ok p) : p.assignments = a.assigned := by
  rw [processor] at hp
  rw [assigned]
  cases heffect : a.effect with
  | copy source =>
    rw [heffect] at hp
    cases hpattern : source.pattern? with
    | none =>
      obtain rfl := Except.ok.inj (by simpa only [hpattern] using hp)
      simp [Processor.assignments, hpattern]
    | some regex =>
      obtain rfl := Except.ok.inj (by simpa only [hpattern] using hp)
      simp [Processor.assignments, hpattern]
  | searchTopology search =>
    rw [heffect] at hp
    obtain ⟨filter, rfl⟩ := search.exists_filter_of_processor hp
    cases hmode : search.enriches <;> simp [Processor.assignments, TopologySearch.outcome, hmode]
  | _ =>
    rw [heffect] at hp
    obtain rfl := Except.ok.inj hp
    rfl

theorem mem_hiddenReads (h : a.check.accepts) (hp : a.processor = .ok p) :
    f ∈ a.hiddenReads ↔ f ∈ p.updateReads ∧ f ∉ a.reads := by
  rw [Processor.updateReads, assignments_of_processor hp, assigned, hiddenReads]
  cases heffect : a.effect with
  | copy source =>
    have hreads : a.reads = Text.referencedFields source.value := by
      simp [reads, sources, Effect.sources, heffect]
    cases hpattern : source.pattern? <;> simp [hpattern, UpdateValue.reads, hreads]
  | concat source => simp [UpdateValue.reads]
  | hpMetric selected =>
    have hreads : a.reads = [] := by simp [reads, sources, Effect.sources, heffect]
    simp [UpdateValue.reads, hreads]
  | searchTopology search =>
    by_cases hmode : search.enriches
    · simp [hmode]
    · simp only [hmode, Bool.false_eq_true, if_false, List.mem_filter, decide_eq_true_eq,
        TopologySearch.mem_reads_markedUpdates (nodup_updates h heffect hmode)]
      simp [and_assoc]
  | _ => simp

theorem mem_hiddenWrites (hp : a.processor = .ok p) :
    f ∈ a.hiddenWrites ↔ f ∈ p.updateWrites ∧ f ≠ a.field := by
  rw [Processor.updateWrites, assignments_of_processor hp, assigned, hiddenWrites]
  cases heffect : a.effect with
  | copy source => cases hpattern : source.pattern? <;> simp [field, hpattern]
  | concat source => simp [field]
  | hpMetric selected =>
    have hstrip : Text.stripField "parserType" = "parserType" := by decide
    simp [hstrip]
  | searchTopology search =>
    by_cases hmode : search.enriches
    · simp [hmode]
    · simp only [hmode, Bool.false_eq_true, if_false, List.mem_filter, decide_eq_true_eq,
        TopologySearch.mem_writes_markedUpdates]
      simp
  | _ => simp

/-- Only a field that is hidden on one side can be missed. -/
theorem seen_iff (ha : a.check.accepts) (hpa : a.processor = .ok pa) (hpb : b.processor = .ok pb) :
    a.Seen b ↔ ∀ f ∈ pa.updateReads, f ∈ pb.updateWrites →
      f ∈ a.hiddenReads ∨ f ∈ b.hiddenWrites → a.dependsOn b := by
  constructor
  · exact fun h f hread hwrite _ => h pa pb hpa hpb f hread hwrite
  · intro h pa' pb' hpa' hpb' f hread hwrite
    obtain rfl := Except.ok.inj (hpa.symm.trans hpa')
    obtain rfl := Except.ok.inj (hpb.symm.trans hpb')
    by_cases hhidden : f ∈ a.hiddenReads ∨ f ∈ b.hiddenWrites
    · exact h f hread hwrite hhidden
    · -- the field is the target of the second action, and a source of the first one reads it
      rw [not_or, mem_hiddenReads ha hpa, mem_hiddenWrites hpb] at hhidden
      obtain rfl : f = b.field := by_contra fun hne => hhidden.2 ⟨hwrite, hne⟩
      exact dependsOn_iff.mpr (by_contra fun hnot => hhidden.1 ⟨hread, hnot⟩)

theorem accepts_copy {target value : String} : (copy target value).check.accepts ↔
    (copy target value).targetFilled ∧ isFilled value := by
  rw [accepts_check, Bool.and_eq_true]
  simp [checkTarget, checkEffect, copy, ofEffect, requireField, kind, Effect.kind,
    ActionKind.allowsNoTarget]

/-- A reference may be the target of a copy. -/
theorem accepts_copy_assigning (f : String) : (copy (Text.decorate f) "1").check.accepts := by
  have htrim : Text.trim (Text.decorate f) = Text.decorate f := by
    rw [Text.trim, Text.trimChars_eq_self (Text.trimmed_decorate f), String.ofList_toList]
  have hsentinel : Text.decorate f ≠ emptySentinel := by
    rw [Text.decorate, ne_eq, ← String.toList_inj, String.toList_ofList]
    exact fun h => absurd (List.cons.inj h).1 (by decide)
  rw [accepts_copy, targetFilled, isFilled]
  simp only [copy, ofEffect, htrim, Text.isBlank_decorate]
  exact ⟨by simpa using hsentinel, by decide⟩

theorem accepts_copy_reading (f : String) : (copy "t" (Text.decorate f)).check.accepts := by
  have htarget : (isFilled "t" && Text.trim "t" ≠ emptySentinel) = true := by decide
  rw [accepts_copy, isFilled, Text.isBlank_decorate]
  exact ⟨htarget, rfl⟩

/-- A field that the first action hides is missed where a copy assigns it. -/
theorem not_seen_copy (ha : a.check.accepts) (hf : f ∈ a.hiddenReads) :
    ¬ a.Seen (copy (Text.decorate f) "1") := by
  obtain ⟨pa, hpa⟩ := exists_processor ha
  obtain ⟨hread, hnot⟩ := (mem_hiddenReads ha hpa).mp hf
  have hreferable := Processor.referable_of_mem_updateReads hread
  have hstrip := Text.stripField_decorate hreferable.trimmed
  intro hseen
  have hdep := hseen pa (.set [(Text.decorate f, "1")]) hpa rfl f hread
    (by simp [Processor.updateWrites, Processor.assignments, hstrip])
  rw [dependsOn_iff, field, copy, ofEffect, hstrip] at hdep
  exact hnot hdep

/-- A field that the second action hides is missed where a copy reads it. -/
theorem not_copy_seen (hpb : b.processor = .ok pb) (hf : f ∈ b.hiddenWrites)
    (hreferable : Text.Referable f) : ¬ (copy "t" (Text.decorate f)).Seen b := by
  obtain ⟨hwrite, hne⟩ := (mem_hiddenWrites hpb).mp hf
  have href := Text.referencedFields_decorate hreferable
  intro hseen
  have hdep := hseen (.set [("t", Text.decorate f)]) pb rfl hpb f
    (by simp [Processor.updateReads, Processor.assignments, UpdateValue.reads, href]) hwrite
  have hreads : (copy "t" (Text.decorate f)).reads = [f] := by
    simp [reads, sources, Effect.sources, copy, ofEffect, href]
  rw [dependsOn_iff, hreads, List.mem_singleton] at hdep
  exact hne hdep.symm

end Action

/-- How far the relation between accepted actions sees the updates that they are translated to. What
it does not see is exactly a field that the first action reads in its updates and not in its
sources, or that the second one assigns besides its target: without such a field the first action
depends on the second whenever their updates share one, and each such field is missed together with
some accepted action that hides nothing itself, unless no expression can reference it. -/
theorem updates_seen_exact {a b : Action} (ha : a.check.accepts) (hb : b.check.accepts) :
    ∃ pa pb, a.processor = .ok pa ∧ b.processor = .ok pb ∧
      (∀ f, f ∈ a.hiddenReads ↔ f ∈ pa.updateReads ∧ f ∉ a.reads) ∧
      (∀ f, f ∈ b.hiddenWrites ↔ f ∈ pb.updateWrites ∧ f ≠ b.field) ∧
      (a.Seen b ↔ ∀ f ∈ pa.updateReads, f ∈ pb.updateWrites →
        f ∈ a.hiddenReads ∨ f ∈ b.hiddenWrites → a.dependsOn b) ∧
      ((∀ c : Action, c.check.accepts → c.hiddenWrites = [] → a.Seen c) ↔ a.hiddenReads = []) ∧
      ((∀ c : Action, c.check.accepts → c.hiddenReads = [] → c.Seen b) ↔
        ∀ f ∈ b.hiddenWrites, f = "" ∨ '}' ∈ f.toList) := by
  obtain ⟨pa, hpa⟩ := Action.exists_processor ha
  obtain ⟨pb, hpb⟩ := Action.exists_processor hb
  refine ⟨pa, pb, hpa, hpb, fun f => Action.mem_hiddenReads ha hpa,
    fun f => Action.mem_hiddenWrites hpb, Action.seen_iff ha hpa hpb, ⟨fun h => ?_, fun h => ?_⟩,
    fun h => ?_, fun h => ?_⟩
  · refine List.eq_nil_iff_forall_not_mem.mpr fun f hf => ?_
    exact Action.not_seen_copy ha hf (h _ (Action.accepts_copy_assigning f) rfl)
  · intro c hc hwrites
    obtain ⟨pc, hpc⟩ := Action.exists_processor hc
    refine (Action.seen_iff ha hpa hpc).mpr fun f _ _ hhidden => ?_
    simp [h, hwrites] at hhidden
  · intro f hf
    have htrimmed :=
      Processor.trimmed_of_mem_updateWrites ((Action.mem_hiddenWrites hpb).mp hf).1
    by_contra hne
    rw [not_or] at hne
    exact Action.not_copy_seen hpb hf ⟨hne.1, htrimmed, hne.2⟩
      (h _ (Action.accepts_copy_reading f) rfl)
  · intro c hc hreads
    obtain ⟨pc, hpc⟩ := Action.exists_processor hc
    refine (Action.seen_iff hc hpc hpb).mpr fun f hread _ hhidden => ?_
    rw [hreads] at hhidden
    have hreferable := Processor.referable_of_mem_updateReads hread
    exact absurd (h f (hhidden.resolve_left List.not_mem_nil))
      (not_or.mpr ⟨hreferable.ne_empty, hreferable.no_brace⟩)

/-- A plain copy and what it reads from another one. -/
theorem updates_seen_exact_copies :
    let a := Action.copy "A" "${B}"
    let b := Action.copy "B" "1"
    a.check.accepts ∧ b.check.accepts ∧ a.dependsOn b ∧ a.Seen b ∧
      ∀ c : Action, c.check.accepts → c.hiddenWrites = [] → a.Seen c := by
  intro a b
  have ha : a.check.accepts := by decide +kernel
  have hb : b.check.accepts := by decide +kernel
  obtain ⟨pa, pb, -, -, -, -, hseen, hreads, -⟩ := updates_seen_exact ha hb
  have hdep : a.dependsOn b := by decide +kernel
  exact ⟨ha, hb, hdep, hseen.mpr fun _ _ _ _ => hdep, hreads.mpr rfl⟩

/-- A search that updates `site` by `x`, and an action that assigns `x`: the updates of the first
read what those of the second assign, and the first does not depend on the second. -/
theorem updates_unseen_search :
    let search : TopologySearch :=
      { field := "name", value := "v", mode := "update", updates := [⟨"site", "${x}"⟩] }
    let a := Action.ofEffect "t" (.searchTopology search)
    let b := Action.copy "x" "1"
    a.check.accepts ∧ b.check.accepts ∧ ¬ a.Seen b := by
  intro search a b
  refine ⟨by decide +kernel, by decide +kernel, fun h => ?_⟩
  have hdep := h _ _ rfl rfl "x" (by decide +kernel) (by decide +kernel)
  exact absurd hdep (by decide +kernel)

end EventRules

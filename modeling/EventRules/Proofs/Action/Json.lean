import EventRules.Action.Json
import EventRules.Proofs.Condition.Json

/-! Actions that are written and read again. An action is written with the name of its kind as it
was given, and that name tells under which members its effect is found. -/
namespace EventRules

open Json

theorem valueEntry?_object (v : String) : valueEntry? (.object [("value", .text v)]) = some v := by
  simp [fields?, valueEntry?, textField, text?]

theorem list?_valueEntries (vs : List String) : list? valueEntry? (valueEntries vs) = some vs :=
  list?_array_map fun v _ => valueEntry?_object v

theorem soleText?_object (name value : String) :
    soleText? name (.object [(name, .text value)]) = some value := by
  simp [soleText?, fields?, textField, text?]

theorem Source.ofJson?_toJson (s : Source) : ofJson? s.toJson = some s := by
  have hvalues : (nonempty (fun v => Json.object [("value", .text v)]) s.values).elim (some [])
      (list? valueEntry?) = some s.values := nonempty_elim fun v _ => valueEntry?_object v
  simp [ofJson?, toJson, textField, optionalText, listField, valueEntries, hvalues]

theorem KeyValue.ofJson?_toJson (e : KeyValue) : ofJson? e.toJson = some e := by
  simp [ofJson?, toJson, fields?, textField, text?, List.lookup_cons]

theorem ValueTable.ofJson?_toJson (t : ValueTable) : ofJson? t.toJson = some t := by
  have hentries : list? KeyValue.ofJson? (.array (t.entries.map KeyValue.toJson)) =
      some t.entries := list?_array_map fun e _ => e.ofJson?_toJson
  simp [ofJson?, toJson, textField, flagField, listField, bool?, hentries]

theorem DateFormat.ofJson?_toJson (d : DateFormat) : ofJson? d.toJson = some d := by
  simp [ofJson?, toJson, fields?, textField, text?, List.lookup_cons]

theorem Replacement.ofJson?_toJson (r : Replacement) : ofJson? r.toJson = some r := by
  simp [ofJson?, toJson, fields?, textField, text?, List.lookup_cons]

theorem LogLine.ofJson?_toJson (l : LogLine) : ofJson? l.toJson = some l := by
  simp [ofJson?, toJson, fields?, textField, text?, List.lookup_cons]

theorem CaseChange.ofJson?_toJson (c : CaseChange) : ofJson? c.toJson = some c := by
  simp [ofJson?, toJson, fields?, textField, flagField, bool?, text?, List.lookup_cons]

theorem Enrichment.ofJson?_toJson (e : Enrichment) : ofJson? e.toJson = some e := by
  simp [ofJson?, toJson, fields?, textField, listField, text?, List.lookup_cons,
    list?_valueEntries]

namespace TopologySearch

/-- The filter of the search, if there is one, has a plain label. -/
def Plain (s : TopologySearch) : Prop := ∀ c ∈ s.filter, c.label.Plain

variable {s : TopologySearch} {value : Json}

theorem plain_of_ofJson? (h : ofJson? value = some s) : s.Plain := by
  simp only [ofJson?, Option.bind_eq_bind, Option.bind_eq_some_iff] at h
  obtain ⟨fields, -, field, -, value, -, mode, -, filter, hfilter, enrichment, -, updates, -,
    h⟩ := h
  obtain rfl := Option.some.inj h
  intro c hc
  obtain ⟨v, hv⟩ := exists_read_of_optionalField hfilter hc
  exact Comparison.plain_of_ofJson? hv

theorem ofJson?_toJson (h : s.Plain) : ofJson? s.toJson = some s := by
  have hfilter : optionalValue Comparison.ofJson? (s.filter.map Comparison.toJson) =
      some s.filter := optionalValue_map fun c hc => ⟨nofun, Comparison.ofJson?_toJson (h c hc)⟩
  have henrichment : optionalValue Enrichment.ofJson? (s.enrichment.map Enrichment.toJson) =
      some s.enrichment := optionalValue_map fun e _ => ⟨nofun, e.ofJson?_toJson⟩
  have hupdates : (nonempty KeyValue.toJson s.updates).elim (some []) (list? KeyValue.ofJson?) =
      some s.updates := nonempty_elim fun e _ => e.ofJson?_toJson
  simp [ofJson?, toJson, textField, listField, text?, hfilter, henrichment, hupdates]

end TopologySearch

namespace Effect

variable {effect : Effect} {kind : ActionKind} {fields : List (String × Json)}

/-- The search of the effect, if it is one, is plain. -/
def Plain (effect : Effect) : Prop := ∀ search, effect = .searchTopology search → search.Plain

theorem kind_of_ofFields? (h : ofFields? kind fields = some effect) : effect.kind = kind := by
  cases kind <;> simp only [ofFields?, Option.bind_eq_bind, Option.bind_eq_some_iff] at h <;>
    grind [Effect.kind]

theorem plain_of_ofFields? (h : ofFields? kind fields = some effect) : effect.Plain := by
  rintro search rfl
  obtain rfl : kind = .topologySearch := (kind_of_ofFields? h).symm
  simp only [ofFields?, Option.bind_eq_bind, Option.bind_eq_some_iff, fieldOr_eq] at h
  obtain ⟨other, hread, h⟩ := h
  obtain rfl : other = search := by simpa using h
  cases hv : fields.lookup "search" with
  | none =>
    obtain rfl : {} = other := by simpa [hv] using hread
    exact fun c hc => absurd hc (by simp)
  | some value => exact TopologySearch.plain_of_ofJson? (by simpa [hv] using hread)

theorem lookup_id (effect : Effect) : effect.members.lookup "id" = none := by
  cases effect <;> rfl

/-- The effect of an action is found again among its members. -/
theorem ofFields?_written (h : effect.Plain) (id : Option String) (typeName target : String) :
    ofFields? effect.kind (written (optional "id" (id.map .text) ::
      always "actionType" (.text typeName) :: always "target" (.text target) ::
        effect.members.map some)) = some effect := by
  cases effect with
  | copy source => simp [ofFields?, members, kind, source.ofJson?_toJson]
  | concat source => simp [ofFields?, members, kind, source.ofJson?_toJson]
  | map source table =>
    simp [ofFields?, members, kind, source.ofJson?_toJson, table.ofJson?_toJson]
  | formatDate source format =>
    simp [ofFields?, members, kind, source.ofJson?_toJson, format.ofJson?_toJson]
  | clear source => simp [ofFields?, members, kind, source.ofJson?_toJson]
  | clearNonStandard source => simp [ofFields?, members, kind, source.ofJson?_toJson]
  | replaceText source replacement =>
    simp [ofFields?, members, kind, source.ofJson?_toJson, replacement.ofJson?_toJson]
  | logEvent title => simp [ofFields?, members, kind, soleText?_object]
  | logText line => simp [ofFields?, members, kind, line.ofJson?_toJson]
  | hpMetric selected => simp [ofFields?, members, kind, soleText?_object]
  | changeCase change => simp [ofFields?, members, kind, change.ofJson?_toJson]
  | searchTopology search =>
    simp [ofFields?, members, kind, TopologySearch.ofJson?_toJson (h search rfl)]

end Effect

namespace Action

/-- The kind of the action is the one that its name says, and its effect is plain. -/
structure Plain (a : Action) : Prop where
  kind : ActionKind.ofName? a.typeName = some a.kind
  effect : a.effect.Plain

variable {a : Action} {value : Json}

theorem plain_of_ofJson? (h : ofJson? value = some a) : a.Plain := by
  rw [ofJson?, ofJson] at h
  split at h
  next => simp [Except.toOption] at h
  next kind hkind =>
    split at h
    next action hread =>
      obtain rfl : action = a := by simpa [Except.toOption] using h
      obtain ⟨members, hmembers, hfields⟩ := Option.bind_eq_some_iff.mp hread
      obtain rfl : value = .object members := by cases value <;> simp_all [members?]
      simp only [ofFields?, Option.bind_eq_bind, Option.bind_eq_some_iff] at hfields
      obtain ⟨id, -, typeName, htypeName, target, -, effect, heffect, hfields⟩ := hfields
      obtain rfl := Option.some.inj hfields
      have hname : typeNameOf (.object members) = typeName := by
        rw [textField, fieldOr_eq] at htypeName
        rw [typeNameOf, member?]
        cases hv : members.lookup "actionType" with
        | none => simpa [hv] using htypeName
        | some v => simp_all
      rw [hname] at hkind
      obtain rfl := Effect.kind_of_ofFields? heffect
      exact ⟨hkind, Effect.plain_of_ofFields? heffect⟩
    next => simp [Except.toOption] at h

theorem typeNameOf_toJson (a : Action) : typeNameOf a.toJson = a.typeName := by
  simp [typeNameOf, toJson, record_eq, member?, text?]

theorem ofJson?_toJson (h : a.Plain) : ofJson? a.toJson = some a := by
  have heffect := Effect.ofFields?_written h.effect a.id a.typeName a.target
  have hfields : (a.toJson.members?.bind (ofFields? a.effect.kind)) = some a := by
    simp [toJson, record_eq, members?, ofFields?, optionalText, textField, text?, heffect,
      Effect.lookup_id]
  rw [ofJson?, ofJson, typeNameOf_toJson, h.kind]
  simp [kind, hfields, Except.toOption]

end Action

end EventRules

import EventRules.Proofs.Processor.Parts
import Mathlib.Data.List.SplitBy

/-! The shape of a translation. The actions fall into longest runs of assignments and single other
actions, and each of these becomes one processor: a run the assignment of its distinct targets in
the order in which they first occur, each with the last expression that the run has for it. -/
namespace EventRules.Action

/-- The action is a plain assignment: a concatenation, or a copy without a pattern. -/
def assigns (a : Action) : Bool :=
  match a.effect with
  | .copy source => source.pattern?.isNone
  | .concat _ => true
  | _ => false

/-- Nothing but assignments, and at least one. -/
def IsRun (actions : List Action) : Prop := actions ≠ [] ∧ ∀ a ∈ actions, a.assigns

/-- The longest runs of assignments among some actions, and the other actions one by one. -/
def runs (actions : List Action) : List (List Action) :=
  actions.splitBy fun a b => a.assigns && b.assigns

/-- What a run of assignments becomes, or another action by itself. -/
inductive Becomes : List Action → Processor → Prop
  | run {run : List Action} {updates : List (String × String)} (hrun : IsRun run)
      (hkeys : Ordered.keys updates = distinct (run.map target))
      (hlast : ∀ entry ∈ updates, Ordered.IsLast entry (run.filterMap assignment?)) :
      Becomes run (.set updates)
  | other {a : Action} {p : Processor} (ha : ¬ a.assigns) (hp : a.processor = .ok p) :
      Becomes [a] p

variable {a : Action} {actions run rest : List Action} {p : Processor} {ps : List Processor}

theorem isSome_assignment? (a : Action) : a.assignment?.isSome = a.assigns := by
  unfold assigns assignment?
  cases a.effect with
  | copy source => cases hp : source.pattern? <;> simp [hp]
  | _ => rfl

theorem assignment?_of_not_assigns (h : ¬ a.assigns) : a.assignment? = none := by
  simpa [← isSome_assignment?] using h

theorem target_of_assignment? {assignment : String × String}
    (h : a.assignment? = some assignment) : assignment.1 = a.target := by
  unfold assignment? at h
  split at h
  next =>
    split at h
    · rw [← Option.some.inj h]
    · simp at h
  next => rw [← Option.some.inj h]
  next => simp at h

theorem exists_assignment (h : a.assigns) :
    ∃ expression, a.assignment? = some (a.target, expression) := by
  rw [← isSome_assignment?, Option.isSome_iff_exists] at h
  obtain ⟨⟨target, expression⟩, ha⟩ := h
  obtain rfl : target = a.target := target_of_assignment? ha
  exact ⟨expression, ha⟩

theorem keys_assignments (h : ∀ a ∈ run, a.assigns) :
    Ordered.keys (run.filterMap assignment?) = run.map target := by
  induction run with
  | nil => rfl
  | cons a run ih =>
    obtain ⟨expression, ha⟩ := exists_assignment (h a (by simp))
    simp [ha, ih fun b hb => h b (by simp [hb])]

theorem becomes_iff_of_isRun (h : IsRun run) :
    Becomes run p ↔ p = .set (Ordered.ofPairs (run.filterMap assignment?)) := by
  constructor
  · rintro (⟨-, hkeys, hlast⟩ | ⟨ha, -⟩)
    · rw [← keys_assignments h.2] at hkeys
      rw [Ordered.eq_ofPairs_iff.mpr ⟨hkeys, hlast⟩]
    · exact absurd (h.2 _ (by simp)) ha
  · rintro rfl
    obtain ⟨hkeys, hlast⟩ := Ordered.eq_ofPairs_iff.mp (Eq.refl (Ordered.ofPairs _))
    exact .run h (keys_assignments h.2 ▸ hkeys) hlast

theorem becomes_singleton_iff (h : ¬ a.assigns) : Becomes [a] p ↔ a.processor = .ok p := by
  constructor
  · rintro (⟨hrun, -, -⟩ | ⟨-, hp⟩)
    · exact absurd (hrun.2 a (by simp)) h
    · exact hp
  · exact .other h

/-- An open run takes in the assignments that come next, up to another action. -/
theorem processorsAfter_run (done : List (String × String)) (hrun : ∀ a ∈ run, a.assigns)
    (hrest : ∀ a ∈ rest.head?, ¬ a.assigns) :
    processorsAfter (some (Ordered.ofPairs done)) (run ++ rest) =
      (processors rest).map
        (.set (Ordered.ofPairs (done ++ run.filterMap assignment?)) :: ·) := by
  induction run generalizing done with
  | nil =>
    cases rest with
    | nil => simp [processorsAfter, processors, closeRun, Except.map]
    | cons a rest =>
      -- an action of another kind closes the run
      have ha := assignment?_of_not_assigns (hrest a rfl)
      simp only [List.nil_append, List.filterMap_nil, List.append_nil, processors, processorsAfter,
        ha]
      cases a.processor with
      | error fault => rfl
      | ok own => simp [map_map_except, closeRun]
  | cons a run ih =>
    obtain ⟨expression, ha⟩ := exists_assignment (hrun a (by simp))
    have hmore := ih (done ++ [(a.target, expression)]) fun b hb => hrun b (by simp [hb])
    rw [Ordered.ofPairs_concat, List.append_assoc, List.singleton_append] at hmore
    simp only [List.cons_append, processorsAfter, ha, Option.getD_some, List.filterMap_cons]
    exact hmore

theorem processors_run (hrun : IsRun run) (hrest : ∀ a ∈ rest.head?, ¬ a.assigns) :
    processors (run ++ rest) =
      (processors rest).map (.set (Ordered.ofPairs (run.filterMap assignment?)) :: ·) := by
  obtain ⟨a, run, rfl⟩ := List.exists_cons_of_ne_nil hrun.1
  obtain ⟨expression, ha⟩ := exists_assignment (hrun.2 a (by simp))
  have htail : ∀ b ∈ run, b.assigns := fun b hb => hrun.2 b (by simp [hb])
  have hopen := processorsAfter_run [(a.target, expression)] htail hrest
  simp only [List.cons_append, processors, processorsAfter, ha, List.filterMap_cons]
  exact hopen

theorem processors_other (h : ¬ a.assigns) : processors (a :: rest) = .ok ps ↔
    ∃ own others, a.processor = .ok own ∧ processors rest = .ok others ∧ ps = own :: others := by
  simp only [processors, processorsAfter, assignment?_of_not_assigns h]
  cases a.processor with
  | error fault => simp
  | ok own =>
    rw [map_eq_ok]
    constructor
    · rintro ⟨others, hothers, rfl⟩
      exact ⟨own, others, rfl, hothers, rfl⟩
    · rintro ⟨_, others, hown, hothers, rfl⟩
      obtain rfl := Except.ok.inj hown
      exact ⟨others, hothers, rfl⟩

/-- What comes after a run, where no two runs are next to each other, begins with another action. -/
theorem not_assigns_of_head?_flatten {groups : List (List Action)}
    (hgroups : ∀ group ∈ groups, IsRun group ∨ ∃ a, ¬ a.assigns ∧ group = [a])
    (hapart : ∀ next ∈ groups.head?, ¬ IsRun next) : ∀ a ∈ groups.flatten.head?, ¬ a.assigns := by
  cases groups with
  | nil => simp
  | cons next groups =>
    obtain ⟨b, hb, rfl⟩ := (hgroups next (by simp)).resolve_left (hapart next rfl)
    simpa using hb

/-- Each run becomes one processor, and each other action does. -/
theorem processors_flatten {groups : List (List Action)}
    (hgroups : ∀ group ∈ groups, IsRun group ∨ ∃ a, ¬ a.assigns ∧ group = [a])
    (hapart : groups.IsChain fun group next => ¬ (IsRun group ∧ IsRun next)) :
    processors groups.flatten = .ok ps ↔ List.Forall₂ Becomes groups ps := by
  induction groups generalizing ps with
  | nil => simp [processors, processorsAfter, closeRun, eq_comm]
  | cons group groups ih =>
    obtain ⟨hnext, hchain⟩ := List.isChain_cons.mp hapart
    have hrest := fun ps => @ih ps (fun g hg => hgroups g (by simp [hg])) hchain
    rw [List.flatten_cons, List.forall₂_cons_left_iff]
    rcases hgroups group (by simp) with hrun | ⟨a, ha, rfl⟩
    · have hhead := not_assigns_of_head?_flatten (fun g hg => hgroups g (by simp [hg]))
        fun next hn hnextRun => hnext next hn ⟨hrun, hnextRun⟩
      simp only [processors_run hrun hhead, map_eq_ok, becomes_iff_of_isRun hrun, ← hrest]
      constructor
      · rintro ⟨others, hothers, rfl⟩
        exact ⟨_, others, rfl, hothers, rfl⟩
      · rintro ⟨_, others, rfl, hothers, rfl⟩
        exact ⟨others, hothers, rfl⟩
    · simp only [List.singleton_append, processors_other ha, becomes_singleton_iff ha, ← hrest]

/-- Actions are all assignments if of any two neighbours both are. -/
theorem assigns_of_isChain {a b : Action}
    (h : (a :: b :: rest).IsChain fun a b => a.assigns && b.assigns) :
    ∀ c ∈ a :: b :: rest, c.assigns := by
  induction rest generalizing a b with
  | nil => simpa using h
  | cons c rest ih =>
    obtain ⟨hab, hrest⟩ := List.isChain_cons_cons.mp h
    exact List.forall_mem_cons.mpr ⟨(Bool.and_eq_true_iff.mp hab).1, ih hrest⟩

theorem isRun_or_singleton (hne : actions ≠ [])
    (h : actions.IsChain fun a b => a.assigns && b.assigns) :
    IsRun actions ∨ ∃ a, ¬ a.assigns ∧ actions = [a] := by
  match actions with
  | [] => exact absurd rfl hne
  | [a] =>
    by_cases ha : a.assigns
    · exact .inl ⟨hne, by simpa using ha⟩
    · exact .inr ⟨a, ha, rfl⟩
  | a :: b :: rest => exact .inl ⟨hne, assigns_of_isChain h⟩

theorem runs_spec (actions : List Action) : (runs actions).flatten = actions ∧
    (∀ group ∈ runs actions, IsRun group ∨ ∃ a, ¬ a.assigns ∧ group = [a]) ∧
    (runs actions).IsChain fun group next => ¬ (IsRun group ∧ IsRun next) := by
  refine ⟨List.flatten_splitBy _ actions, fun group hg => ?_, ?_⟩
  · exact isRun_or_singleton (List.ne_nil_of_mem_splitBy hg) (List.isChain_of_mem_splitBy hg)
  · refine (List.isChain_getLast_head_splitBy _ actions).imp fun group next hbreak hboth => ?_
    obtain ⟨hgroup, hnext, hfalse⟩ := hbreak
    have hlast := hboth.1.2 _ (List.getLast_mem hgroup)
    have hhead := hboth.2.2 _ (List.head_mem hnext)
    simp [hlast, hhead] at hfalse

/-- The processors of any actions: one for each longest run of assignments and one for each other
action, in their order; and the one of a metric is its own. -/
theorem merged_shape_exact (actions : List Action) (ps : List Processor) :
    ((runs actions).flatten = actions ∧
      (∀ group ∈ runs actions, IsRun group ∨ ∃ a, ¬ a.assigns ∧ group = [a]) ∧
      (runs actions).IsChain fun group next => ¬ (IsRun group ∧ IsRun next)) ∧
    (processors actions = .ok ps ↔ List.Forall₂ Becomes (runs actions) ps) ∧
    (processors actions = .ok ps → ∀ group p, (group, p) ∈ (runs actions).zip ps →
      ∀ a ∈ group, ∀ selected, a.effect = .hpMetric selected →
        group = [a] ∧ p = .set [("parserType", selected)]) := by
  obtain ⟨hflatten, hgroups, hapart⟩ := runs_spec actions
  have hexact : processors actions = .ok ps ↔ List.Forall₂ Becomes (runs actions) ps := by
    rw [← processors_flatten hgroups hapart, hflatten]
  refine ⟨⟨hflatten, hgroups, hapart⟩, hexact, fun hok group p hmem a ha selected heffect => ?_⟩
  have hbecomes : Becomes group p := (List.forall₂_iff_zip.mp (hexact.mp hok)).2 hmem
  have hown : ¬ a.assigns := by simp [assigns, heffect]
  obtain ⟨b, -, rfl⟩ := (hgroups group (List.of_mem_zip hmem).1).resolve_left fun hrun =>
    hown (hrun.2 a ha)
  obtain rfl : a = b := by simpa using ha
  have hp := (becomes_singleton_iff hown).mp hbecomes
  simp only [processor, heffect, Except.ok.injEq] at hp
  exact ⟨rfl, hp.symm⟩

/-- A metric between assignments, two assignments to one target in a run, and a copy with a
pattern. -/
theorem merged_shape_exact_metric :
    let metric := ofEffect "" (.hpMetric "m")
    let actions := [copy "a" "1", metric, copy "b" "2", concat "a" ["3", "4"], copy "b" "5",
      extract "c" "${a}" "x", copy "d" "6"]
    let ps := [Processor.set [("a", "1")], .set [("parserType", "m")],
      .set [("b", "5"), ("a", "34")], .extractText "x" "c" "${a}", .set [("d", "6")]]
    processors actions = .ok ps ∧ ([metric], .set [("parserType", "m")]) ∈ (runs actions).zip ps ∧
      List.Forall₂ Becomes (runs actions) ps := by
  intro metric actions ps
  have hok : processors actions = .ok ps := rfl
  obtain ⟨-, hexact, hmetric⟩ := merged_shape_exact actions ps
  have hmem : ([metric], ps[1]) ∈ (runs actions).zip ps := List.mem_of_getElem? (i := 1) rfl
  obtain ⟨-, hset⟩ := hmetric hok [metric] ps[1] hmem metric (by simp) "m" rfl
  exact ⟨hok, hset ▸ hmem, hexact.mp hok⟩

end EventRules.Action

import EventRules.Proofs.Pipeline.Run

/-! The order of a run. What a run of a chained document has on its agenda before a block are the
blocks that are left of the phases met so far; the run goes down the document as long as these are
in ascending order, which no phase disturbs whose blocks are over before earlier
phases come back. -/
namespace EventRules

namespace Pipeline

variable {p : Pipeline} {last : String}

/-- The places of the blocks of the phase that the block at a place enters. -/
def enteredAt (p : Pipeline) (i : ℕ) : List ℕ :=
  (p.jumpsAt i).flatMap fun q => placesOf (· == q) p.names

/-- What is left to do before the block at a place: all later blocks of the phases met up to it. -/
structure AwaitingAt (p : Pipeline) (i : ℕ) (agenda : List ℕ) : Prop where
  ascending : agenda.Pairwise (· < ·)
  mem_iff : ∀ j, j ∈ agenda ↔ i ≤ j ∧ ∃ q ∈ p.names.take (i + 1), p.names[j]? = some q

/-- The run that goes straight down the document. -/
def course (p : Pipeline) (places : List ℕ) : List Event :=
  places.flatMap fun i => .block i :: (p.jumpsAt i).map .phase

theorem course_append (places more : List ℕ) :
    course p (places ++ more) = course p places ++ course p more := List.flatMap_append

theorem filterMap_course (places : List ℕ) : (course p places).filterMap Event.place? = places := by
  induction places with
  | nil => rfl
  | cons i rest ih =>
    have hphases : ((p.jumpsAt i).map Event.phase).filterMap Event.place? = [] := by
      simp [List.filterMap_map, Function.comp_def, Event.place?]
    simp only [course, List.flatMap_cons, List.filterMap_append, List.filterMap_cons] at ih ⊢
    rw [ih, hphases]
    rfl

theorem filterMap_map_block (places : List ℕ) :
    (places.map Event.block).filterMap Event.place? = places := by
  simp [List.filterMap_map, Function.comp_def, Event.place?]

/-- The block itself comes first on the agenda. -/
theorem AwaitingAt.eq_cons {i : ℕ} {agenda : List ℕ} (ha : AwaitingAt p i agenda)
    (hi : i < p.blocks.length) : ∃ rest, agenda = i :: rest := by
  have hat := List.getElem?_eq_getElem (length_names.symm ▸ hi : i < p.names.length)
  have hmem : i ∈ agenda := (ha.mem_iff i).mpr ⟨le_rfl, _, List.mem_take_iff_getElem.mpr
    ⟨i, by rw [length_names]; omega, rfl⟩, hat⟩
  cases agenda with
  | nil => simp at hmem
  | cons j rest =>
    have hij := ((ha.mem_iff j).mp (by simp)).1
    have hasc := (List.pairwise_cons.mp ha.ascending).1
    rcases List.mem_cons.mp hmem with rfl | hmem
    · exact ⟨rest, rfl⟩
    · have := hasc i hmem
      omega

theorem AwaitingAt.mem_tail {i : ℕ} {rest : List ℕ} (ha : AwaitingAt p i (i :: rest)) (j : ℕ) :
    j ∈ rest ↔ i + 1 ≤ j ∧ ∃ q ∈ p.names.take (i + 1), p.names[j]? = some q := by
  have hmem := ha.mem_iff j
  rw [List.mem_cons] at hmem
  constructor
  · exact fun hj => ⟨(List.pairwise_cons.mp ha.ascending).1 j hj, (hmem.mp (.inr hj)).2⟩
  · exact fun hj => (hmem.mpr ⟨by omega, hj.2⟩).resolve_left (by omega)

namespace Chained

variable (h : Chained p last)
include h

theorem mem_enteredAt {i j : ℕ} : j ∈ p.enteredAt i ↔
    ∃ q, p.names[i + 1]? = some q ∧ q ∉ p.names.take (i + 1) ∧ p.names[j]? = some q := by
  simp only [enteredAt, List.mem_flatMap, h.linked.mem_jumpsAt, mem_and_idxOf_eq_iff, mem_placesOf,
    beq_iff_eq, exists_eq_right, and_assoc]
  refine exists_congr fun q => ?_
  -- a block carries the phase, so it is not the last one
  by_cases hq : p.names[j]? = some q
  · have hne : q ≠ last := by
      rintro rfl
      exact h.last_notMem (List.mem_of_getElem? hq)
    have hat : (p.names ++ [last])[i + 1]? = some q ↔ p.names[i + 1]? = some q := by
      rw [List.getElem?_append]
      split <;> grind
    have htake : q ∈ (p.names ++ [last]).take (i + 1) ↔ q ∈ p.names.take (i + 1) := by
      rw [List.take_append, List.mem_append]
      exact or_iff_left fun hmem => hne (List.mem_singleton.mp (List.mem_of_mem_take hmem))
    rw [hat, htake]
  · simp [hq]

theorem enteredAt_ascending (i : ℕ) : (p.enteredAt i).Pairwise (· < ·) := by
  rcases h.linked.jumpsAt_cases i with hj | ⟨q, hj⟩
  · simp [enteredAt, hj]
  · simpa [enteredAt, hj] using placesOf_ascending (· == q) p.names

/-- What a block leaves on the agenda and what it puts there are in order when the phase that it
enters is over before earlier phases come back. -/
theorem ascending_iff {i : ℕ} {rest : List ℕ} (ha : AwaitingAt p i (i :: rest)) :
    (p.enteredAt i ++ rest).Pairwise (· < ·) ↔ ClearAt p.names (i + 1) := by
  rw [List.pairwise_append, and_iff_right (h.enteredAt_ascending i),
    and_iff_right (List.pairwise_cons.mp ha.ascending).2]
  simp only [h.mem_enteredAt, ha.mem_tail]
  constructor
  · intro hlt q hq hnew x y a hx hy hmet hle
    exact hlt x ⟨q, hq, hnew, hx⟩ y ⟨hle, a, hmet, hy⟩
  · rintro hlt x ⟨q, hq, hnew, hx⟩ y ⟨hle, a, hmet, hy⟩
    exact hlt q hq hnew x y a hx hy hmet hle

theorem awaitingAt_succ {i : ℕ} {rest : List ℕ} (ha : AwaitingAt p i (i :: rest))
    (hc : ClearAt p.names (i + 1)) : AwaitingAt p (i + 1) (p.enteredAt i ++ rest) := by
  refine ⟨(h.ascending_iff ha).mpr hc, fun j => ?_⟩
  have htake : p.names.take (i + 1 + 1) = p.names.take (i + 1) ++ (p.names[i + 1]?).toList :=
    List.take_add_one
  rw [List.mem_append, h.mem_enteredAt, ha.mem_tail, htake]
  constructor
  · rintro (⟨q, hq, hnew, hj⟩ | ⟨hle, q, hmet, hj⟩)
    · refine ⟨?_, q, by simp [hq], hj⟩
      by_contra hlt
      obtain ⟨hlen, hat⟩ := List.getElem?_eq_some_iff.mp hj
      exact hnew (List.mem_take_iff_getElem.mpr ⟨j, by omega, hat⟩)
    · exact ⟨hle, q, by simp [hmet], hj⟩
  · rintro ⟨hle, q, hq, hj⟩
    by_cases hmet : q ∈ p.names.take (i + 1)
    · exact .inr ⟨hle, q, hmet, hj⟩
    · have hnext := (List.mem_append.mp hq).resolve_left hmet
      exact .inl ⟨q, by simpa using hnext, hmet, hj⟩

theorem runs_block {i : ℕ} {rest : List ℕ} {trace : List Event}
    (ht : Runs p.steps ((i :: rest).map .block) trace) : ∃ others,
      trace = course p [i] ++ others ∧
        Runs p.steps ((p.enteredAt i ++ rest).map .block) others := by
  obtain ⟨others, rfl, hothers⟩ := ht.of_cons
  rw [steps_block] at hothers
  rcases h.linked.jumpsAt_cases i with hj | ⟨q, hj⟩
  · refine ⟨others, by simp [course, hj], ?_⟩
    simpa [hj, enteredAt] using hothers
  · rw [hj, List.map_singleton, List.singleton_append] at hothers
    obtain ⟨later, rfl, hlater⟩ := hothers.of_cons
    refine ⟨later, by simp [course, hj], ?_⟩
    simpa [hj, enteredAt, steps_phase] using hlater

/-- Before any block, a run goes straight down the rest of the document exactly when no phase that
is still to be entered crosses earlier ones. -/
theorem runs_awaiting {m i : ℕ} {agenda : List ℕ} {trace : List Event}
    (hm : i + m = p.blocks.length) (ha : AwaitingAt p i agenda)
    (ht : Runs p.steps (agenda.map .block) trace) :
    ((trace.filterMap Event.place?).Pairwise (· < ·) → ∀ k, i < k → ClearAt p.names k) ∧
      ((∀ k, i < k → ClearAt p.names k) → trace = course p (List.range' i m)) := by
  induction m generalizing i agenda trace with
  | zero =>
    have hnil : agenda = [] := by
      rw [List.eq_nil_iff_forall_not_mem]
      intro j hj
      obtain ⟨hle, q, -, hq⟩ := (ha.mem_iff j).mp hj
      have := (List.getElem?_eq_some_iff.mp hq).1
      rw [length_names] at this
      omega
    subst hnil
    refine ⟨fun _ k hk q hq => ?_, fun _ => ht.of_nil⟩
    have := (List.getElem?_eq_some_iff.mp hq).1
    rw [length_names] at this
    omega
  | succ m ih =>
    obtain ⟨rest, rfl⟩ := ha.eq_cons (by omega)
    obtain ⟨others, rfl, hothers⟩ := h.runs_block ht
    constructor
    · intro hasc k hk
      rw [List.filterMap_append, filterMap_course, List.singleton_append] at hasc
      have hothersAsc := (List.pairwise_cons.mp hasc).2
      -- the agenda is part of what happens, so it is in order as well
      have hsub := hothers.sublist.filterMap Event.place?
      rw [filterMap_map_block] at hsub
      have hnext : ClearAt p.names (i + 1) := (h.ascending_iff ha).mp (hothersAsc.sublist hsub)
      rcases Nat.lt_or_ge (i + 1) k with hlt | hge
      · exact (ih (by omega) (h.awaitingAt_succ ha hnext) hothers).1 hothersAsc k hlt
      · obtain rfl : i + 1 = k := by omega
        exact hnext
    · intro hclear
      have hnext := h.awaitingAt_succ ha (hclear (i + 1) (by omega))
      rw [(ih (by omega) hnext hothers).2 fun k hk => hclear k (by omega), List.range'_succ]
      simp [course]

section Whole

variable {first : String} {trace : List Event} (ht : Runs p.steps [.phase first] trace)
include ht

/-- A run from the first phase goes straight down the document exactly when no phases cross. -/
theorem runs_first (hfirst : p.names[0]? = some first) :
    ((trace.filterMap Event.place?).Pairwise (· < ·) → ¬ Crossing p.names) ∧
      (¬ Crossing p.names → trace = .phase first :: course p (List.range p.blocks.length)) := by
  obtain ⟨others, rfl, hothers⟩ := ht.of_cons
  rw [List.append_nil, steps_phase] at hothers
  have htake : p.names.take (0 + 1) = [first] := by
    rw [List.take_add_one, hfirst]
    rfl
  have ha : AwaitingAt p 0 (placesOf (· == first) p.names) := by
    refine ⟨placesOf_ascending _ _, fun j => ?_⟩
    simp [mem_placesOf, htake]
  obtain ⟨hclear, hcourse⟩ := h.runs_awaiting (Nat.zero_add _) ha hothers
  have hzero : ClearAt p.names 0 := fun q _ _ x y a _ _ hmet _ => by simp at hmet
  constructor
  · intro hasc
    refine forall_clearAt_iff.mp fun k => ?_
    rcases Nat.eq_zero_or_pos k with rfl | hk
    · exact hzero
    · exact hclear hasc k hk
  · intro hno
    rw [hcourse fun k _ => forall_clearAt_iff.mpr hno k, List.range_eq_range']

end Whole

end Chained

/-- The block of a rule is executed, or the phase is run. -/
def shows (p : Pipeline) (phase : String) : Event → Bool
  | .phase name => name == phase
  | .block place => p.rulePlaces.contains place

/-- The blocks of the rules are executed once each, in the order of the document, and then the phase
is run once. -/
def RunsInOrder (p : Pipeline) (phase : String) (trace : List Event) : Prop :=
  trace.filter (p.shows phase) = p.rulePlaces.map .block ++ [.phase phase]

end Pipeline

end EventRules

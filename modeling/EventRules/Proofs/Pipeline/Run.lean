import EventRules.Proofs.Dependency.Component
import EventRules.Proofs.Pipeline.Chain
import EventRules.Proofs.Pipeline.Crossing

/-! Running documents. To run a phase is to execute the blocks that carry it, in the order of the
document, and to execute a block is to run the phases to which it jumps, unless its filter keeps it
from that. What is left to do is an agenda, and each event puts what it brings about before the
rest. -/
namespace EventRules

section Agenda

variable {ε : Type}

/-- The events that an agenda brings about, when each event expands to others that come next. -/
inductive Runs (expand : ε → List ε) : List ε → List ε → Prop
  | done : Runs expand [] []
  | step {e : ε} {agenda trace : List ε} (h : Runs expand (expand e ++ agenda) trace) :
      Runs expand (e :: agenda) (e :: trace)

variable {expand : ε → List ε} {agenda agenda' trace trace' : List ε}

theorem Runs.of_nil (h : Runs expand [] trace) : trace = [] := by
  cases h
  rfl

theorem Runs.of_cons {e : ε} (h : Runs expand (e :: agenda) trace) :
    ∃ rest, trace = e :: rest ∧ Runs expand (expand e ++ agenda) rest := by
  cases h with
  | step h => exact ⟨_, rfl, h⟩

theorem Runs.unique (h : Runs expand agenda trace) (h' : Runs expand agenda trace') :
    trace = trace' := by
  induction h generalizing trace' with
  | done => exact h'.of_nil.symm
  | step _ ih =>
    obtain ⟨rest, rfl, hrest⟩ := h'.of_cons
    rw [ih hrest]

theorem Runs.append (h : Runs expand agenda trace) (h' : Runs expand agenda' trace') :
    Runs expand (agenda ++ agenda') (trace ++ trace') := by
  induction h with
  | done => exact h'
  | step _ ih =>
    rw [List.append_assoc] at ih
    exact .step ih

theorem Runs.split {before after : List ε} {e : ε} (h : Runs expand agenda (before ++ e :: after)) :
    ∃ rest, Runs expand (expand e ++ rest) after := by
  induction before generalizing agenda with
  | nil =>
    cases h with
    | step h => exact ⟨_, h⟩
  | cons _ _ ih =>
    cases h with
    | step h => exact ih h

/-- What is on the agenda happens in this order. -/
theorem Runs.sublist (h : Runs expand agenda trace) : agenda.Sublist trace := by
  induction h with
  | done => exact .slnil
  | step _ ih => exact ((List.sublist_append_right _ _).trans ih).cons_cons _

/-- Every event was on the agenda or was brought about by another one. -/
theorem Runs.perm (h : Runs expand agenda trace) : trace.Perm (agenda ++ trace.flatMap expand) := by
  induction h with
  | done => exact .refl _
  | step _ ih =>
    refine (ih.cons _).trans ?_
    rw [List.flatMap_cons, List.cons_append, ← List.append_assoc]
    exact (List.perm_append_comm.append_right _).cons _

/-- Where each event stands before those that it brings about, and they stand below some bound,
every agenda comes to an end. -/
theorem exists_runs (rank : ε → ℕ) (bound : ℕ) (hrank : ∀ e, ∀ e' ∈ expand e, rank e < rank e')
    (hbound : ∀ e, ∀ e' ∈ expand e, rank e' < bound) (agenda : List ε) :
    ∃ trace, Runs expand agenda trace := by
  have hlist (events : List ε) (h : ∀ e ∈ events, ∃ t, Runs expand [e] t) :
      ∃ t, Runs expand events t := by
    induction events with
    | nil => exact ⟨[], .done⟩
    | cons e rest ih =>
      obtain ⟨t, ht⟩ := h e (by simp)
      obtain ⟨u, hu⟩ := ih fun e he => h e (by simp [he])
      exact ⟨t ++ u, ht.append hu⟩
  have hone (e : ε) : ∃ t, Runs expand [e] t := by
    -- the events brought about are nearer to the bound
    induction hn : bound - rank e using Nat.strong_induction_on generalizing e with
    | _ n ih =>
      obtain ⟨t, ht⟩ := hlist (expand e) fun e' he' => by
        have hlt := hrank e e' he'
        have hbelow := hbound e e' he'
        exact ih (bound - rank e') (by omega) e' rfl
      exact ⟨e :: t, .step (by rwa [List.append_nil])⟩
  exact hlist agenda fun e _ => hone e

theorem count_flatMap_eq [DecidableEq ε] {e source : ε}
    (h : ∀ other, (expand other).count e = if other = source then 1 else 0) (trace : List ε) :
    (trace.flatMap expand).count e = trace.count source := by
  induction trace with
  | nil => rfl
  | cons other rest ih =>
    rw [List.flatMap_cons, List.count_append, ih, h, List.count_cons, add_comm]
    simp

end Agenda

namespace Pipeline

inductive Event where
  | phase (name : String)
  | block (place : ℕ)
  deriving DecidableEq

/-- The place of a block that is executed. -/
def Event.place? : Event → Option ℕ
  | .phase _ => none
  | .block place => some place

/-- The names of the phases of the blocks. -/
def names (p : Pipeline) : List String := p.blocks.map PhaseBlock.phase

/-- The phases to which the block at a place jumps. -/
def jumpsAt (p : Pipeline) (place : ℕ) : List String :=
  ((p.blocks[place]?).map PhaseBlock.jumps).getD []

/-- What an event brings about when only some blocks pass their filters. -/
def expand (p : Pipeline) (passes : ℕ → Bool) : Event → List Event
  | .phase name => (placesOf (· == name) p.names).map .block
  | .block place => if passes place then (p.jumpsAt place).map .phase else []

/-- What an event brings about when every filter is true. -/
def steps (p : Pipeline) : Event → List Event := p.expand fun _ => true

/-- Each block jumps to the phase of the next one when that comes for the first time, the last one
to a phase that no block carries, and no block jumps anywhere else. -/
structure Chained (p : Pipeline) (last : String) : Prop where
  linked : Linked [] p.blocks last
  last_notMem : last ∉ p.names

/-- How far down the document an event belongs: a phase before the first block that carries it. -/
def rank (p : Pipeline) (last : String) : Event → ℕ
  | .phase q => 2 * (p.names ++ [last]).idxOf q
  | .block place => 2 * place + 1

variable {p : Pipeline} {last : String}

@[simp] theorem length_names : p.names.length = p.blocks.length := List.length_map _

theorem Linked.jumps_eq {entered : List String} {blocks : List PhaseBlock}
    (h : Linked entered blocks last) {i : ℕ} {b : PhaseBlock} (hb : blocks[i]? = some b) :
    b.jumps = let next := ((blocks.map PhaseBlock.phase)[i + 1]?).getD last
      if next ∈ entered ++ (blocks.map PhaseBlock.phase).take (i + 1) then [] else [next] := by
  induction blocks generalizing entered i with
  | nil => simp at hb
  | cons c rest ih =>
    obtain ⟨hjumps, hrest⟩ := h
    cases i with
    | zero =>
      obtain rfl : c = b := by simpa using hb
      rw [hjumps]
      simp [mem_enter, List.head?_eq_getElem?]
    | succ i =>
      rw [ih hrest (by simpa using hb)]
      simp [mem_enter, or_assoc, or_comm, or_left_comm]

@[simp] theorem mem_expand_phase {passes : ℕ → Bool} {q : String} {e : Event} :
    e ∈ p.expand passes (.phase q) ↔ ∃ i, p.names[i]? = some q ∧ e = .block i := by
  simp only [expand, List.mem_map, mem_placesOf, beq_iff_eq]
  constructor
  · rintro ⟨i, ⟨_, hi, rfl⟩, rfl⟩
    exact ⟨i, hi, rfl⟩
  · rintro ⟨i, hi, rfl⟩
    exact ⟨i, ⟨q, hi, rfl⟩, rfl⟩

@[simp] theorem mem_expand_block {passes : ℕ → Bool} {i : ℕ} {e : Event} :
    e ∈ p.expand passes (.block i) ↔ passes i ∧ ∃ q ∈ p.jumpsAt i, e = .phase q := by
  simp only [expand]
  split
  next hp => simp [hp, eq_comm]
  next hp => simp [hp]

theorem steps_phase (q : String) :
    p.steps (.phase q) = (placesOf (· == q) p.names).map .block := rfl

theorem steps_block (i : ℕ) : p.steps (.block i) = (p.jumpsAt i).map .phase := rfl

theorem block_mem_steps {i : ℕ} {q : String} (hi : p.names[i]? = some q) {e : Event} :
    .block i ∈ p.steps e ↔ e = .phase q := by
  cases e with
  | phase name => simp [steps, hi, eq_comm]
  | block place => simp [steps]

theorem phase_mem_steps {q : String} {e : Event} :
    .phase q ∈ p.steps e ↔ ∃ i, q ∈ p.jumpsAt i ∧ e = .block i := by
  cases e with
  | phase name => simp [steps]
  | block place => simp [steps]

/-- The places of the blocks of the rules, between the first block and the last one. -/
def rulePlaces (p : Pipeline) : List ℕ := List.range' 1 (p.blocks.length - 2)

section Enclosed

variable {phases : Phases} {notify : Option String} {blocks : List PhaseBlock}

theorem names_enclosed : (enclosed phases notify blocks).names =
    phases.entry :: (blocks.map PhaseBlock.phase ++ [phases.run]) := by
  simp [names, enclosed, entryBlock, publishBlock]

theorem length_enclosed : (enclosed phases notify blocks).blocks.length = blocks.length + 2 := by
  simp [enclosed]

theorem mem_rulePlaces_enclosed {i : ℕ} :
    i ∈ (enclosed phases notify blocks).rulePlaces ↔ 0 < i ∧ i ≤ blocks.length := by
  rw [rulePlaces, List.mem_range'_1]
  simp only [enclosed, List.cons_append, List.length_cons, List.length_append, List.length_nil]
  omega

theorem jumpsAt_enclosed_zero : (enclosed phases notify blocks).jumpsAt 0 =
    [((blocks.head?).map PhaseBlock.phase).getD phases.run] := by
  simp [jumpsAt, enclosed]

theorem jumpsAt_enclosed_succ {i : ℕ} (hi : i < blocks.length) :
    (enclosed phases notify blocks).jumpsAt (i + 1) = jumpsAt ⟨blocks⟩ i := by
  rw [jumpsAt, jumpsAt, enclosed, List.cons_append, List.getElem?_cons_succ,
    List.getElem?_append_left hi]

theorem jumpsAt_enclosed_last :
    (enclosed phases notify blocks).jumpsAt (blocks.length + 1) = [phases.publish] := by
  rw [jumpsAt, enclosed, List.cons_append, List.getElem?_cons_succ,
    List.getElem?_append_right le_rfl]
  simp [publishBlock, PhaseBlock.jumps, Processor.jump?]

theorem getElem?_names_enclosed {i : ℕ} (hi : 0 < i) (hle : i ≤ blocks.length + 1) :
    ∃ q ∈ blocks.map PhaseBlock.phase ++ [phases.run],
      (enclosed phases notify blocks).names[i]? = some q := by
  obtain ⟨k, rfl⟩ := Nat.exists_eq_succ_of_ne_zero hi.ne'
  have hk : k < (blocks.map PhaseBlock.phase ++ [phases.run]).length := by simp; omega
  exact ⟨_, List.getElem_mem hk, by rw [names_enclosed, Nat.succ_eq_add_one,
    List.getElem?_cons_succ, List.getElem?_eq_getElem hk]⟩

theorem pick_rulePlaces :
    pick (enclosed phases notify blocks).blocks (enclosed phases notify blocks).rulePlaces =
      blocks := by
  have hplaces : (enclosed phases notify blocks).rulePlaces =
      (List.range blocks.length).map (1 + ·) := by
    simp [enclosed, rulePlaces, List.range'_eq_map_range]
  conv_rhs => rw [← pick_range blocks]
  rw [hplaces, pick, pick, List.filterMap_map]
  refine List.filterMap_congr fun i hi => ?_
  rw [Function.comp_apply, add_comm, enclosed, List.cons_append, List.getElem?_cons_succ,
    List.getElem?_append_left (List.mem_range.mp hi)]

end Enclosed

theorem jumpsAt_of_le {i : ℕ} (hi : p.blocks.length ≤ i) : p.jumpsAt i = [] := by
  simp [jumpsAt, hi]

theorem getElem?_names_append (last : String) {i : ℕ} {q : String} (hi : p.names[i]? = some q) :
    (p.names ++ [last])[i]? = some q := by
  rw [List.getElem?_append_left (List.getElem?_eq_some_iff.mp hi).1, hi]

namespace Linked

variable (h : Linked [] p.blocks last)
include h

theorem jumpsAt_eq {i : ℕ} (hi : i < p.blocks.length) :
    p.jumpsAt i = let next := (p.names[i + 1]?).getD last
      if next ∈ p.names.take (i + 1) then [] else [next] := by
  have hb := List.getElem?_eq_getElem hi
  simpa [jumpsAt, hb, names] using h.jumps_eq hb

theorem jumpsAt_cases (i : ℕ) : p.jumpsAt i = [] ∨ ∃ q, p.jumpsAt i = [q] := by
  rcases lt_or_ge i p.blocks.length with hi | hi
  · rw [h.jumpsAt_eq hi]
    dsimp only
    split
    · exact .inl rfl
    · exact .inr ⟨_, rfl⟩
  · exact .inl (jumpsAt_of_le hi)

/-- A phase is entered from the block before the first one that carries it, and the last phase from
the last block. -/
theorem mem_jumpsAt {i : ℕ} {q : String} :
    q ∈ p.jumpsAt i ↔ q ∈ p.names ++ [last] ∧ (p.names ++ [last]).idxOf q = i + 1 := by
  rw [mem_and_idxOf_eq_iff]
  rcases lt_or_ge i p.blocks.length with hi | hi
  · have hnext : (p.names ++ [last])[i + 1]? = some ((p.names[i + 1]?).getD last) := by
      rcases Nat.lt_or_ge (i + 1) p.names.length with hlt | hge
      · rw [List.getElem?_append_left hlt, List.getElem?_eq_getElem hlt, Option.getD_some]
      · obtain hlen : i + 1 = p.names.length := by
          rw [length_names] at hge ⊢
          omega
        simp [hlen]
    have htake : (p.names ++ [last]).take (i + 1) = p.names.take (i + 1) :=
      List.take_append_of_le_length (by rwa [length_names])
    rw [h.jumpsAt_eq hi, hnext, htake]
    grind
  · rw [jumpsAt_of_le hi]
    have hlen : (p.names ++ [last])[i + 1]? = none := by simpa using hi
    simp [hlen]

end Linked

namespace Chained

variable (h : Chained p last)
include h

theorem steps_nodup (e : Event) : (p.steps e).Nodup := by
  cases e with
  | phase name =>
    have hnodup : (placesOf (· == name) p.names).Nodup := (placesOf_ascending _ _).imp Nat.ne_of_lt
    exact hnodup.map fun i j hij => by simpa using hij
  | block place =>
    refine List.Nodup.map (fun q q' hq => by simpa using hq) ?_
    rcases h.linked.jumpsAt_cases place with hj | ⟨q, hj⟩ <;> simp [hj]

/-- An event that only one other brings about happens as often as that one. -/
theorem count_flatMap {e source : Event} (hs : ∀ other, e ∈ p.steps other ↔ other = source)
    (trace : List Event) : (trace.flatMap p.steps).count e = trace.count source :=
  count_flatMap_eq (fun other => by rw [(h.steps_nodup other).count, if_congr (hs other) rfl rfl])
    trace

theorem rank_lt {e e' : Event} (he : e' ∈ p.steps e) : p.rank last e < p.rank last e' := by
  cases e with
  | phase q =>
    obtain ⟨i, hi, rfl⟩ := mem_expand_phase.mp he
    have hle : (p.names ++ [last]).idxOf q ≤ i :=
      idxOf_le_of_getElem? (getElem?_names_append last hi)
    simp only [rank]
    omega
  | block i =>
    obtain ⟨-, q, hq, rfl⟩ := mem_expand_block.mp he
    have hidx := (h.linked.mem_jumpsAt.mp hq).2
    simp only [rank]
    omega

/-- Every run of such a document comes to an end. -/
theorem exists_run (agenda : List Event) : ∃ trace, Runs p.steps agenda trace := by
  refine exists_runs (p.rank last) (2 * p.blocks.length + 2) (fun e e' => h.rank_lt) ?_ agenda
  intro e e' he
  cases e' with
  | phase q =>
    obtain ⟨i, hq, -⟩ := phase_mem_steps.mp he
    have hlt := List.idxOf_lt_length_iff.mpr (h.linked.mem_jumpsAt.mp hq).1
    simp only [rank, List.length_append, List.length_singleton, length_names] at hlt ⊢
    omega
  | block i =>
    cases e with
    | phase q =>
      obtain ⟨j, hj, hij⟩ := mem_expand_phase.mp he
      cases hij
      have hlt := (List.getElem?_eq_some_iff.mp hj).1
      simp only [rank, length_names] at hlt ⊢
      omega
    | block j =>
      obtain ⟨-, q, -, hq⟩ := mem_expand_block.mp he
      cases hq

section Counts

variable {first : String} {trace : List Event} (ht : Runs p.steps [.phase first] trace)
include ht

theorem count_block {i : ℕ} {q : String} (hi : p.names[i]? = some q) :
    trace.count (.block i) = trace.count (.phase q) := by
  rw [ht.perm.count_eq, List.count_append, h.count_flatMap fun e => block_mem_steps hi]
  simp

/-- Running the first phase runs each phase once. -/
theorem count_phase (hfirst : p.names[0]? = some first) {q : String} (hq : q ∈ p.names ++ [last]) :
    trace.count (.phase q) = 1 := by
  have hidx : (p.names ++ [last]).idxOf first = 0 :=
    Nat.le_zero.mp (idxOf_le_of_getElem? (getElem?_names_append last hfirst))
  induction hk : (p.names ++ [last]).idxOf q using Nat.strong_induction_on generalizing q with
  | _ k ih =>
  have hat := List.getElem?_idxOf hq
  rw [hk] at hat
  rw [ht.perm.count_eq, List.count_append]
  cases k with
  | zero =>
    have hnone : .phase q ∉ trace.flatMap p.steps := by
      simp only [List.mem_flatMap, phase_mem_steps, h.linked.mem_jumpsAt, hk]
      rintro ⟨_, -, i, ⟨-, hi⟩, -⟩
      omega
    obtain rfl : first = q :=
      Option.some.inj ((getElem?_names_append last hfirst).symm.trans hat)
    rw [List.count_eq_zero.mpr hnone]
    simp
  | succ i =>
    have hsource : ∀ e, .phase q ∈ p.steps e ↔ e = .block i := by
      intro e
      simp only [phase_mem_steps, h.linked.mem_jumpsAt, hq, hk, true_and, Nat.succ.injEq]
      grind
    have hne : first ≠ q := by
      rintro rfl
      omega
    have hlt : i < p.names.length := by
      have := (List.getElem?_eq_some_iff.mp hat).1
      simp at this ⊢
      omega
    have hi := List.getElem?_eq_getElem hlt
    have hle := idxOf_le_of_getElem? (getElem?_names_append last hi)
    rw [h.count_flatMap hsource, h.count_block ht hi,
      ih _ (by omega) (List.mem_append_left _ (List.getElem_mem hlt)) rfl]
    simp [hne]

theorem count_block_eq_one (hfirst : p.names[0]? = some first) {i : ℕ} (hi : i < p.blocks.length) :
    trace.count (.block i) = 1 := by
  have hat := List.getElem?_eq_getElem (length_names.symm ▸ hi : i < p.names.length)
  rw [h.count_block ht hat]
  exact h.count_phase ht hfirst (List.mem_append_left _ (List.mem_of_getElem? hat))

end Counts

end Chained

end Pipeline

end EventRules

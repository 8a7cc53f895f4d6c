import EventRules.Proofs.Pipeline.Course
import EventRules.Proofs.RuleSet.Accepted

/-! What running the document of grouped rules executes. Each rule is executed once; the rules are
executed in the order of the document, and before the publish phase, exactly when the phases of the
groups do not cross, the run phase coming last. -/
namespace EventRules

namespace Pipeline

variable {p : Pipeline} {last first run : String} {mid : List String} {trace : List Event}

/-- The document has a block of the first phase, blocks of others, and one of the run phase. -/
structure Framed (p : Pipeline) (first run : String) (mid : List String) : Prop where
  names_eq : p.names = first :: mid ++ [run]
  first_notMem : first ∉ mid
  first_ne : first ≠ run

namespace Framed

variable (hf : Framed p first run mid)
include hf

theorem length_eq : p.blocks.length = mid.length + 2 := by
  rw [← length_names, hf.names_eq]
  simp

theorem names_zero : p.names[0]? = some first := by
  rw [hf.names_eq]
  rfl

theorem mem_rulePlaces {i : ℕ} : i ∈ p.rulePlaces ↔ 0 < i ∧ i + 1 < p.blocks.length := by
  rw [rulePlaces, List.mem_range'_1, hf.length_eq]
  omega

theorem steps_first : p.steps (.phase first) = [.block 0] := by
  have hplaces : placesOf (· == first) p.names = [0] := by
    refine (placesOf_ascending _ _).eq_of_mem_iff (List.pairwise_singleton _ _) fun i => ?_
    rw [mem_placesOf, hf.names_eq]
    cases i with
    | zero => simp
    | succ i =>
      have hnot : first ∉ mid ++ [run] := by simp [hf.first_notMem, hf.first_ne]
      simp only [List.cons_append, List.getElem?_cons_succ, beq_iff_eq, exists_eq_right,
        List.mem_singleton, Nat.succ_ne_zero, iff_false]
      exact fun hat => hnot (List.mem_of_getElem? hat)
  rw [steps_phase, hplaces]
  rfl

end Framed

theorem block_lt (ht : Runs p.steps [.phase first] trace) {i : ℕ} (hi : .block i ∈ trace) :
    i < p.blocks.length := by
  have hmem := ht.perm.mem_iff.mp hi
  simp only [List.cons_append, List.nil_append, List.mem_cons, reduceCtorEq, false_or,
    List.mem_flatMap] at hmem
  obtain ⟨e, -, he⟩ := hmem
  cases e with
  | phase q =>
    obtain ⟨j, hj, hij⟩ := mem_expand_phase.mp he
    cases hij
    exact length_names ▸ (List.getElem?_eq_some_iff.mp hj).1
  | block j =>
    obtain ⟨-, q, -, hq⟩ := mem_expand_block.mp he
    cases hq

namespace Chained

variable (h : Chained p last)
include h

theorem mem_jumpsAt_last {i : ℕ} : last ∈ p.jumpsAt i ↔ i + 1 = p.blocks.length := by
  rw [h.linked.mem_jumpsAt, List.idxOf_append_of_notMem h.last_notMem]
  simp [eq_comm]

/-- What a block shows is itself if it is that of a rule, and the last phase if it comes last. -/
theorem filter_course_singleton (i : ℕ) : (course p [i]).filter (p.shows last) =
    (if i ∈ p.rulePlaces then [.block i] else []) ++
      if i + 1 = p.blocks.length then [.phase last] else [] := by
  have hjumps : ((p.jumpsAt i).map Event.phase).filter (p.shows last) =
      if i + 1 = p.blocks.length then [.phase last] else [] := by
    have hlast := h.mem_jumpsAt_last (i := i)
    rcases h.linked.jumpsAt_cases i with hj | ⟨q, hj⟩
    · rw [hj] at hlast ⊢
      rw [if_neg fun hi => by simpa using hlast.mpr hi]
      rfl
    · rw [hj, List.mem_singleton] at hlast
      rw [hj, ← if_congr hlast rfl rfl]
      by_cases hq : last = q
      · simp [shows, hq]
      · simp [shows, hq, Ne.symm hq]
  rw [course, List.flatMap_singleton, List.filter_cons, hjumps]
  by_cases hi : i ∈ p.rulePlaces <;> simp [shows, hi]

/-- The last block runs the last phase before any other block comes. -/
theorem last_phase_first (ht : Runs p.steps [.phase first] trace) {i j : ℕ}
    (hi : i + 1 = p.blocks.length) (hsub : [.block i, .block j].Sublist trace) :
    [.phase last, .block j].Sublist trace := by
  obtain ⟨front, back, rfl, hfront, hback⟩ := List.cons_sublist_iff.mp hsub
  obtain ⟨before, between, rfl⟩ := List.append_of_mem hfront
  have hsteps : p.steps (.block i) = [.phase last] := by
    have hmem := h.mem_jumpsAt_last.mpr hi
    rcases h.linked.jumpsAt_cases i with hj | ⟨q, hj⟩
    · simp [hj] at hmem
    · obtain rfl : last = q := by simpa [hj] using hmem
      rw [steps_block, hj]
      rfl
  rw [List.append_assoc, List.cons_append] at ht ⊢
  obtain ⟨rest, hrest⟩ := ht.split
  rw [hsteps, List.singleton_append] at hrest
  obtain ⟨later, hlater, -⟩ := hrest.of_cons
  have hmem : .block j ∈ later := by
    have hmem : .block j ∈ between ++ back :=
      List.mem_append_right _ (List.singleton_sublist.mp hback)
    rw [hlater] at hmem
    simpa using hmem
  rw [hlater]
  exact ((List.singleton_sublist.mpr hmem).cons_cons _).trans
    ((List.sublist_cons_self _ _).trans (List.sublist_append_right _ _))

variable (hf : Framed p first run mid)
include hf

theorem filter_course {places : List ℕ} (hplaces : ∀ i ∈ places, i ∈ p.rulePlaces) :
    (course p places).filter (p.shows last) = places.map .block := by
  induction places with
  | nil => rfl
  | cons i rest ih =>
    obtain ⟨-, hi⟩ := hf.mem_rulePlaces.mp (hplaces i (by simp))
    rw [← List.singleton_append, course_append, List.filter_append, h.filter_course_singleton,
      if_pos (hplaces i (by simp)), if_neg (by omega), ih fun j hj => hplaces j (by simp [hj])]
    rfl

/-- Straight down the document, the rules come in order, and the last phase comes after them. -/
theorem runsInOrder_course :
    RunsInOrder p last (.phase first :: course p (List.range p.blocks.length)) := by
  have hlen := hf.length_eq
  have hrange : List.range p.blocks.length = [0] ++ (p.rulePlaces ++ [mid.length + 1]) := by
    rw [rulePlaces, hlen, List.range_eq_range', List.range'_succ, List.range'_1_concat]
    simp [add_comm]
  have hfirst : p.shows last (.phase first) = false := by
    have hmem := List.mem_of_getElem? hf.names_zero
    simp only [shows, beq_eq_false_iff_ne]
    rintro rfl
    exact h.last_notMem hmem
  have hzero : 0 ∉ p.rulePlaces := by simp [hf.mem_rulePlaces]
  have hend : mid.length + 1 ∉ p.rulePlaces := by
    rw [hf.mem_rulePlaces]
    omega
  rw [RunsInOrder, List.filter_cons_of_neg (by simp [hfirst]), hrange, course_append, course_append,
    List.filter_append, List.filter_append, h.filter_course hf fun i hi => hi,
    h.filter_course_singleton, h.filter_course_singleton, if_neg hzero, if_neg (by omega),
    if_neg hend, if_pos (by omega)]
  simp

section Runs

variable (ht : Runs p.steps [.phase first] trace)
include ht

theorem not_twice {i : ℕ} (hi : i < p.blocks.length) : ¬ [.block i, .block i].Sublist trace := by
  intro htwice
  have hcount := htwice.count_le (.block i)
  rw [h.count_block_eq_one ht hf.names_zero hi] at hcount
  simp at hcount

/-- The first block comes before all others. -/
theorem not_before_first {i : ℕ} : ¬ [.block i, .block 0].Sublist trace := by
  intro hsub
  have hzero : 0 < p.blocks.length := by
    rw [hf.length_eq]
    omega
  obtain ⟨others, rfl, hothers⟩ := ht.of_cons
  rw [List.append_nil, hf.steps_first] at hothers
  obtain ⟨later, rfl, -⟩ := hothers.of_cons
  have hlater : [.block 0].Sublist later := by
    rcases List.sublist_cons_iff.mp hsub with hsub | ⟨_, heq, -⟩
    · exact hsub.tail
    · cases heq
  exact h.not_twice hf ht hzero ((hlater.cons_cons _).trans (List.sublist_cons_self _ _))

/-- When the rules come in order and the last phase after them, then all blocks come in order. -/
theorem ascending_of_runsInOrder (hr : RunsInOrder p last trace) :
    (trace.filterMap Event.place?).Pairwise (· < ·) := by
  have hshown : ∀ {e e' : Event}, p.shows last e → p.shows last e' → [e, e'].Sublist trace →
      [e, e'].Sublist (p.rulePlaces.map .block ++ [.phase last]) := by
    intro e e' he he' hsub
    have hfilter := hsub.filter (p.shows last)
    rwa [hr, List.filter_cons_of_pos he, List.filter_cons_of_pos he'] at hfilter
  have hrule : ∀ {i}, 0 < i → i + 1 < p.blocks.length → p.shows last (.block i) := by
    intro i hi hlt
    simpa [shows] using hf.mem_rulePlaces.mpr ⟨hi, hlt⟩
  have hlast : p.shows last (.phase last) := by simp [shows]
  rw [List.pairwise_filterMap, List.pairwise_iff_forall_sublist]
  rintro (_ | i) (_ | j) hsub _ ⟨⟩ _ ⟨⟩
  have hi := block_lt ht (hsub.subset List.mem_cons_self)
  have hj := block_lt ht (hsub.subset (List.mem_cons_of_mem _ List.mem_cons_self))
  have hne : i ≠ j := by
    rintro rfl
    exact h.not_twice hf ht hi hsub
  rcases Nat.eq_zero_or_pos j with rfl | hj0
  · exact absurd hsub (h.not_before_first hf ht)
  rcases Nat.eq_zero_or_pos i with rfl | hi0
  · exact hj0
  by_cases hjend : j + 1 = p.blocks.length
  · omega
  have hjrule := hrule hj0 (by omega : j + 1 < p.blocks.length)
  by_cases hiend : i + 1 = p.blocks.length
  · -- the last phase would be run before a rule
    have hbad := hshown hlast hjrule (h.last_phase_first ht hiend hsub)
    have hend : (p.rulePlaces.map Event.block ++ [Event.phase last]).Pairwise fun e _ =>
        e ≠ Event.phase last := by
      rw [List.pairwise_append]
      exact ⟨List.pairwise_map.mpr (List.pairwise_of_forall (by simp)), List.pairwise_singleton _ _,
        by simp⟩
    exact absurd rfl (List.pairwise_iff_forall_sublist.mp hend hbad)
  · have hboth := (hshown (hrule hi0 (by omega)) hjrule hsub).filterMap Event.place?
    have hnone : [Event.phase last].filterMap Event.place? = [] := rfl
    rw [List.filterMap_append, filterMap_map_block, hnone, List.append_nil] at hboth
    have hasc : (p.rulePlaces).Pairwise (· < ·) := List.pairwise_lt_range'
    exact List.pairwise_iff_forall_sublist.mp hasc hboth

/-- The rules come in order, and the last phase after them, exactly when no phases cross. -/
theorem runsInOrder_iff : RunsInOrder p last trace ↔ ¬ Crossing (mid ++ [run]) := by
  obtain ⟨hno, hcourse⟩ := h.runs_first ht hf.names_zero
  have hnot : first ∉ mid ++ [run] := by simp [hf.first_notMem, hf.first_ne]
  have hcrossing : Crossing p.names ↔ Crossing (mid ++ [run]) := by
    rw [hf.names_eq, List.cons_append, crossing_cons_iff hnot]
  rw [← hcrossing]
  constructor
  · exact fun hr => hno (h.ascending_of_runsInOrder hf ht hr)
  · intro hcross
    rw [hcourse hcross]
    exact h.runsInOrder_course hf

end Runs

end Chained

section Document

variable {phases : Phases} {blocks : List PhaseBlock}

/-- The outer blocks go before and after linked blocks, when their phases are no others. -/
theorem chained_document (hl : Linked [] blocks phases.run)
    (hblocks : ∀ q ∈ blocks.map PhaseBlock.phase, q ≠ phases.entry ∧ q ≠ phases.publish)
    (hnames : phases.entry ≠ phases.run ∧ phases.run ≠ phases.publish ∧
      phases.entry ≠ phases.publish) (notify : Option String) :
    Chained (enclosed phases notify blocks) phases.publish := by
  obtain ⟨hrun, hpublish, houter⟩ := hnames
  have hentered : ∀ q, q ∈ blocks.map PhaseBlock.phase ∨ q = phases.run →
      (q ∈ [] ↔ q ∈ enter [] phases.entry) := by
    rintro q (hq | rfl)
    · simpa [mem_enter] using (hblocks q hq).1
    · simpa [mem_enter] using hrun.symm
  have hrest : Linked (enter [] phases.entry) (blocks ++ [publishBlock phases]) phases.publish := by
    refine (hl.congr hentered).concat rfl ?_ hpublish.symm fun hmem => (hblocks _ hmem).2 rfl
    simpa [mem_enter] using houter.symm
  constructor
  · refine ⟨?_, hrest⟩
    have hhead : (((blocks ++ [publishBlock phases]).head?).map PhaseBlock.phase).getD
        phases.publish = ((blocks.head?).map PhaseBlock.phase).getD phases.run := by
      cases blocks <;> rfl
    have hnew : ((blocks.head?).map PhaseBlock.phase).getD phases.run ∉ enter [] phases.entry := by
      refine fun hmem => List.not_mem_nil ((hentered _ ?_).mpr hmem)
      cases blocks <;> simp
    rw [jumps_entryBlock, List.append_eq, hhead]
    exact (if_neg hnew).symm
  · simp only [names, enclosed, List.cons_append, List.map_cons, List.map_append, List.map_nil,
      List.mem_cons, List.mem_append, List.not_mem_nil, or_false]
    rintro (heq | hmem | heq)
    · exact houter heq.symm
    · exact (hblocks _ hmem).2 rfl
    · exact hpublish heq.symm

theorem framed_document
    (hblocks : ∀ q ∈ blocks.map PhaseBlock.phase, q ≠ phases.entry ∧ q ≠ phases.publish)
    (hne : phases.entry ≠ phases.run) (notify : Option String) :
    Framed (enclosed phases notify blocks) phases.entry phases.run
      (blocks.map PhaseBlock.phase) where
  names_eq := by simp [names, enclosed, entryBlock, publishBlock]
  first_notMem hmem := (hblocks _ hmem).1 rfl
  first_ne := hne

end Document

end Pipeline

namespace RuleSet

/-- The phases of the groups, in the order in which the groups first appear. -/
def groupPhases (phases : Phases) (s : RuleSet) : List String :=
  s.groupIds.map fun g => Pipeline.groupPhase phases (s.ofGroup g).rules

variable {catalog : Option Catalog} {phases : Phases} {s imported ordered : RuleSet}

/-- Accepted groups have a document; what crosses in it are the phases of the groups. -/
theorem Accepted.exists_framed (h : Accepted catalog phases s imported ordered)
    (hs : s.AllGrouped) (hnames : phases.entry ≠ phases.run ∧ phases.run ≠ phases.publish ∧
      phases.entry ≠ phases.publish) :
    ∃ p mid, Pipeline.ofRuleSet phases ordered = .ok p ∧
      List.Forall₂ (Pipeline.Emits phases) (s.groupIds.flatMap fun g => (ordered.ofGroup g).rules)
        (pick p.blocks p.rulePlaces) ∧
      p.Chained phases.publish ∧ p.Framed phases.entry phases.run mid ∧
      (Crossing (mid ++ [phases.run]) ↔ Crossing (s.groupPhases phases ++ [phases.run])) := by
  obtain ⟨blocks, hp, hemits, hl, hblocks⟩ := h.exists_document hs
  obtain ⟨phaseOf, hsubmitted, hordered⟩ := h.exists_inPhases
  have hphases := Pipeline.map_phase_of_emits hemits
  refine ⟨_, blocks.map PhaseBlock.phase, hp, ?_, Pipeline.chained_document hl hblocks hnames _,
    Pipeline.framed_document hblocks hnames.1 _, ?_⟩
  · rw [Pipeline.pick_rulePlaces]
    exact hemits
  · have hsame : blocks.map PhaseBlock.phase = s.groupIds.flatMap fun g =>
        List.replicate (ordered.ofGroup g).rules.length (phaseOf g) := by
      rw [hphases, List.map_flatMap]
      refine List.flatMap_congr fun g _ => ?_
      exact List.eq_replicate_iff.mpr ⟨by simp, by simpa using fun r hr => hordered.phaseOr_eq hr⟩
    have hnonempty : ∀ g ∈ s.groupIds, (ordered.ofGroup g).rules.length ≠ 0 := by
      intro g hg
      rw [← h.groupIds_eq hs] at hg
      simpa using (hordered.groupPhase_eq hg).1
    have hgroups : s.groupPhases phases = s.groupIds.map phaseOf :=
      List.map_congr_left fun g hg => (hsubmitted.groupPhase_eq hg).2
    rw [hsame, crossing_flatMap_replicate_iff hnonempty, hgroups]

end RuleSet

/-- The document of accepted groups runs to its end in one way only. Each rule is executed once; the
rules come in the order of the document, and the publish phase after them, exactly when the phases
of the groups do not cross, the run phase coming last. -/
theorem grouped_run_exact {catalog : Option Catalog} {phases : Phases}
    {s imported ordered : RuleSet} (h : RuleSet.Accepted catalog phases s imported ordered)
    (hs : s.AllGrouped) (hnames : phases.entry ≠ phases.run ∧ phases.run ≠ phases.publish ∧
      phases.entry ≠ phases.publish) :
    ∃ p trace, Pipeline.ofRuleSet phases ordered = .ok p ∧
      List.Forall₂ (Pipeline.Emits phases) (s.groupIds.flatMap fun g => (ordered.ofGroup g).rules)
        (pick p.blocks p.rulePlaces) ∧
      (∀ t, Runs p.steps [.phase phases.entry] t ↔ t = trace) ∧
      (∀ i ∈ p.rulePlaces, trace.count (.block i) = 1) ∧
      (p.RunsInOrder phases.publish trace ↔ ¬ Crossing (s.groupPhases phases ++ [phases.run])) := by
  obtain ⟨p, mid, hp, hemits, hchained, hframed, hcrossing⟩ := h.exists_framed hs hnames
  obtain ⟨trace, ht⟩ := hchained.exists_run [.phase phases.entry]
  refine ⟨p, trace, hp, hemits, fun t => ⟨fun ht' => ht'.unique ht, ?_⟩, fun i hi => ?_, ?_⟩
  · rintro rfl
    exact ht
  · have hlt := (hframed.mem_rulePlaces.mp hi).2
    exact hchained.count_block_eq_one ht hframed.names_zero (by omega)
  · rw [hchained.runsInOrder_iff hframed ht, hcrossing]

/-- A rule of a group in a phase, which gives a field a value. -/
def groupRule (group phase target : String) : Rule :=
  { description := "d", groupId := some group, phaseName := some phase,
    actions := [.copy target "1"] }

/-- Two of three groups share a phase, and the one between them has another. -/
theorem grouped_run_exact_shared :
    let s : RuleSet := { entries :=
      [("u", groupRule "g" "p" "A"), ("v", groupRule "h" "q" "B"), ("w", groupRule "i" "p" "C")] }
    s.AllGrouped ∧ ∃ imported ordered, RuleSet.Accepted none {} s imported ordered ∧
      ∃ p trace, Pipeline.ofRuleSet {} ordered = .ok p ∧
        (∀ t, Runs p.steps [.phase "snmp_map"] t ↔ t = trace) ∧
        (∀ i ∈ p.rulePlaces, trace.count (.block i) = 1) ∧
        (p.RunsInOrder "map_publish" trace ↔ ¬ Crossing ["p", "q", "p", "phase_1"]) := by
  intro s
  have hs : s.AllGrouped := by decide
  have haccepted : RuleSet.Accepted none {} s _ _ :=
    RuleSet.accepted_of_checks (by decide +kernel) (by decide +kernel) rfl (by decide +kernel)
      (by decide +kernel) (by decide +kernel)
  obtain ⟨p, trace, hp, -, hruns, hcount, horder⟩ :=
    grouped_run_exact haccepted hs ⟨by decide, by decide, by decide⟩
  have hphases : s.groupPhases {} ++ ["phase_1"] = ["p", "q", "p", "phase_1"] := by decide +kernel
  exact ⟨hs, _, _, haccepted, p, trace, hp, hruns, hcount, hphases ▸ horder⟩

/-- With a group in the phase p, one in the run phase and again one in p, the run phase is run to
its end, and with it the publish phase, before the last group comes. -/
theorem grouped_run_crosses :
    let s : RuleSet := { entries :=
      [("u", groupRule "g" "p" "A"), ("v", groupRule "h" "phase_1" "B"),
        ("w", groupRule "i" "p" "C")] }
    s.AllGrouped ∧ ∃ imported ordered, RuleSet.Accepted none {} s imported ordered ∧
      ∃ p, Pipeline.ofRuleSet {} ordered = .ok p ∧
        (∃ trace, Runs p.steps [.phase "snmp_map"] trace) ∧
        ∀ trace, Runs p.steps [.phase "snmp_map"] trace → ¬ p.RunsInOrder "map_publish" trace := by
  intro s
  have hs : s.AllGrouped := by decide
  have haccepted : RuleSet.Accepted none {} s _ _ :=
    RuleSet.accepted_of_checks (by decide +kernel) (by decide +kernel) rfl (by decide +kernel)
      (by decide +kernel) (by decide +kernel)
  obtain ⟨p, mid, hp, -, hchained, hframed, hcrossing⟩ :=
    haccepted.exists_framed hs ⟨by decide, by decide, by decide⟩
  have hcross : Crossing (s.groupPhases {} ++ ["phase_1"]) :=
    ⟨"p", "phase_1", by decide, by decide +kernel⟩
  refine ⟨hs, _, _, haccepted, p, hp, hchained.exists_run _, fun trace ht hr => ?_⟩
  exact (hchained.runsInOrder_iff hframed ht).mp hr (hcrossing.mpr hcross)

end EventRules

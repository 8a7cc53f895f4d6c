import EventRules.Proofs.Dependency.Resolution
import EventRules.Proofs.Processor.Machine
import Mathlib.Algebra.GroupWithZero.Nat
import Mathlib.Algebra.Order.BigOperators.Group.List
import Mathlib.Algebra.Order.Group.Nat
import Mathlib.Data.Finset.Lattice.Fold
import Mathlib.Order.Lattice.Nat

/-! When runs of assignments may be merged. For arbitrary expressions no run may assign a target
twice; where expressions read only the fields that they reference, an assignment may be dropped if
nothing reads it, and assignments may change places if they do not read each other. -/
namespace EventRules
open Ordered

def Processor.updates : Processor → List (String × String)
  | .set updates => updates
  | _ => []

def Part.count : Part → ℕ
  | .run assignments => assignments.length
  | .own processor => processor.updates.length

theorem Part.length_merged_le (part : Part) : part.merged.updates.length ≤ part.count := by
  cases part with
  | run assignments => exact length_ofPairs_le assignments
  | own processor => exact le_rfl

theorem Part.sum_single (parts : List Part) :
    ((parts.flatMap Part.single).map fun p => p.updates.length).sum =
      (parts.map Part.count).sum := by
  have hone (part : Part) : (part.single.map fun p => p.updates.length).sum = part.count := by
    cases part with
    | run assignments => simp [single, count, Processor.updates, Function.comp_def]
    | own processor => simp [single, count]
  induction parts with
  | nil => rfl
  | cons part rest ih => simp [hone, ih]

namespace Machine

section Counting

/-- The machine that counts assignments: every value is one more than all that came before. -/
def counting (targets : Finset String) : Machine ℕ where
  eval _ record := targets.sup record + 1
  other _ record := record

variable {targets : Finset String}

theorem counting_assign {update : String × String} (h : update.1 ∈ targets) (record : String → ℕ) :
    targets.sup ((counting targets).assign record update) = targets.sup record + 1 := by
  apply le_antisymm
  · refine Finset.sup_le fun f hf => ?_
    by_cases hu : f = update.1
    · simp [assign, counting, hu]
    · have hle : record f ≤ targets.sup record := Finset.le_sup hf
      simp only [assign, Function.update_of_ne hu]
      omega
  · have hle := Finset.le_sup (f := (counting targets).assign record update) h
    simpa [assign, counting] using hle

theorem counting_assignAll {updates : List (String × String)} (h : ∀ u ∈ updates, u.1 ∈ targets)
    (record : String → ℕ) :
    targets.sup ((counting targets).assignAll record updates) =
      targets.sup record + updates.length := by
  induction updates generalizing record with
  | nil => rfl
  | cons u rest ih =>
    have hrest := ih (fun v hv => h v (by simp [hv])) ((counting targets).assign record u)
    rw [assignAll_cons, hrest, counting_assign (h u (by simp)), List.length_cons]
    omega

theorem counting_run {processors : List Processor}
    (h : ∀ p ∈ processors, ∀ u ∈ p.updates, u.1 ∈ targets) (record : String → ℕ) :
    targets.sup ((counting targets).run processors record) =
      targets.sup record + (processors.map fun p => p.updates.length).sum := by
  induction processors generalizing record with
  | nil => rfl
  | cons p rest ih =>
    have hp : targets.sup ((counting targets).step record p) =
        targets.sup record + p.updates.length := by
      cases p with
      | set updates => exact counting_assignAll (h (.set updates) (by simp)) record
      | _ => rfl
    have hrest := ih (fun q hq => h q (by simp [hq])) ((counting targets).step record p)
    rw [run_cons, hrest, hp, List.map_cons, List.sum_cons]
    omega

/-- Merged parts that do the same as single ones in every machine have dropped no assignment. -/
theorem keys_nodup_of_run_eq {parts : List Part}
    (h : ∀ (V : Type) (m : Machine V) record,
      m.run (parts.map Part.merged) record = m.run (parts.flatMap Part.single) record)
    {assignments : List (String × String)} (ha : .run assignments ∈ parts) :
    (keys assignments).Nodup := by
  let processors := parts.map Part.merged ++ parts.flatMap Part.single
  let targets := ((processors.flatMap Processor.updates).map Prod.fst).toFinset
  have htargets : ∀ p ∈ processors, ∀ u ∈ p.updates, u.1 ∈ targets := fun p hp u hu => by
    simp only [targets, List.mem_toFinset]
    exact List.mem_map_of_mem (List.mem_flatMap.mpr ⟨p, hp, hu⟩)
  have hmerged := counting_run (fun p hp => htargets p (List.mem_append_left _ hp)) fun _ => 0
  have hsingle := counting_run (fun p hp => htargets p (List.mem_append_right _ hp)) fun _ => 0
  rw [h ℕ (counting targets), hsingle, Part.sum_single, List.map_map] at hmerged
  by_contra hnodup
  have hlt : (parts.map ((fun p => p.updates.length) ∘ Part.merged)).sum <
      (parts.map Part.count).sum := by
    refine List.sum_lt_sum _ _ (fun part _ => part.length_merged_le) ⟨_, ha, ?_⟩
    by_contra hle
    exact hnodup (keys_nodup_of_length_ofPairs (not_lt.mp hle))
  omega

end Counting
end Machine

/-- One of two updates reads what the other one writes. -/
def Linked (a b : String × String) : Prop :=
  b.1 ∈ Text.referencedFields a.2 ∨ a.1 ∈ Text.referencedFields b.2

/-- Between two assignments to a target, and in the second of them, nothing reads it. -/
def Unread (assignments : List (String × String)) : Prop :=
  ∀ front between back t e e', assignments = front ++ (t, e) :: (between ++ (t, e') :: back) →
    ∀ p ∈ between ++ [(t, e')], t ∉ Text.referencedFields p.2

/-- Merging loses nothing of a run: what it drops is not read, and updates of which one reads the
other are made in the order in which the last assignments to their targets stand. -/
structure Faithful (assignments : List (String × String)) : Prop where
  unread : Unread assignments
  in_order : (ofPairs assignments).Pairwise fun a b => Linked a b →
    [a, b].Sublist (latest assignments)

theorem faithful_of_plain {assignments : List (String × String)}
    (h : ∀ p ∈ assignments, Text.referencedFields p.2 = []) : Faithful assignments where
  unread := by
    rintro front between back t e e' rfl p hp
    have hmem : p ∈ front ++ (t, e) :: (between ++ (t, e') :: back) := by grind
    simp [h p hmem]
  in_order := by
    refine List.pairwise_of_forall_mem_list fun a ha b hb hlink => ?_
    have hmem : ∀ p ∈ ofPairs assignments, Text.referencedFields p.2 = [] := by
      intro p hp
      obtain ⟨front, back, heq, -⟩ := mem_ofPairs.mp hp
      exact h p (by rw [heq]; simp)
    simp [Linked, hmem a ha, hmem b hb] at hlink

namespace Machine

section Local

variable {V : Type} {m : Machine V} (hm : m.Local)
include hm

theorem eval_update {t expression : String} (h : t ∉ Text.referencedFields expression)
    (record : String → V) (v : V) :
    m.eval expression (Function.update record t v) = m.eval expression record := by
  apply hm
  intro f hf
  have hne : f ≠ t := fun heq => h (heq ▸ hf)
  exact Function.update_of_ne hne v record

/-- Two assignments to different targets that are not linked change places. -/
theorem assign_comm {a b : String × String} (hab : a.1 ≠ b.1) (hlink : ¬ Linked a b)
    (record : String → V) :
    m.assign (m.assign record a) b = m.assign (m.assign record b) a := by
  obtain ⟨ha, hb⟩ := not_or.mp hlink
  simp only [assign, eval_update hm ha, eval_update hm hb]
  exact Function.update_comm hab _ _ record

theorem assignAll_move {a : String × String} {front : List (String × String)}
    (h : ∀ b ∈ front, b.1 ≠ a.1 ∧ ¬ Linked b a) (record : String → V) :
    m.assignAll record (front ++ [a]) = m.assignAll record (a :: front) := by
  induction front generalizing record with
  | nil => rfl
  | cons b rest ih =>
    obtain ⟨hne, hlink⟩ := h b (by simp)
    have hrest := ih (fun c hc => h c (by simp [hc])) (m.assign record b)
    rw [List.cons_append, assignAll_cons, hrest]
    simp only [assignAll_cons]
    rw [assign_comm hm hne hlink]

/-- Assignments to distinct targets have the same effect in two orders in which the linked ones
stand alike. -/
theorem assignAll_perm {first second : List (String × String)} (hperm : first.Perm second)
    (hkeys : (keys first).Nodup)
    (horder : second.Pairwise fun a b => Linked a b → [a, b].Sublist first) (record : String → V) :
    m.assignAll record first = m.assignAll record second := by
  induction first generalizing second record with
  | nil => rw [List.nil_perm.mp hperm]
  | cons x rest ih =>
    have hx : x.1 ∉ keys rest := (List.nodup_cons.mp hkeys).1
    have hrest : (keys rest).Nodup := (List.nodup_cons.mp hkeys).2
    obtain ⟨front, back, rfl⟩ := List.append_of_mem (hperm.mem_iff.mp List.mem_cons_self)
    have hcons : rest.Perm (front ++ back) := (List.perm_cons x).mp (hperm.trans List.perm_middle)
    have hdistinct : ∀ b ∈ front ++ back, b.1 ≠ x.1 := by
      intro b hb heq
      have hmem : b.1 ∈ keys rest := List.mem_map_of_mem (hcons.mem_iff.mpr hb)
      exact hx (heq ▸ hmem)
    -- a pair that stands in the first order and does not begin with its head stands in its tail
    have htail {a b : String × String} (ha : a.1 ≠ x.1) (h : [a, b].Sublist (x :: rest)) :
        [a, b].Sublist rest := by
      cases h with
      | cons _ h => exact h
      | cons_cons _ h => exact absurd rfl ha
    have hmove : ∀ b ∈ front, b.1 ≠ x.1 ∧ ¬ Linked b x := by
      intro b hb
      have hne := hdistinct b (List.mem_append_left _ hb)
      refine ⟨hne, fun hlink => ?_⟩
      have hbx := (List.pairwise_append.mp horder).2.2 b hb x (by simp) hlink
      have hmem : x ∈ rest := (htail hne hbx).subset (by simp)
      exact hx (List.mem_map_of_mem hmem)
    have horder' : (front ++ back).Pairwise fun a b => Linked a b → [a, b].Sublist rest := by
      refine (horder.sublist (by simp)).imp_of_mem fun {a b} ha _ hab hlink => ?_
      exact htail (hdistinct a ha) (hab hlink)
    calc m.assignAll record (x :: rest)
        = m.assignAll (m.assign record x) (front ++ back) := ih hcons hrest horder' _
      _ = m.assignAll (m.assignAll record (x :: front)) back := by
          rw [assignAll_append, assignAll_cons]
      _ = m.assignAll record (front ++ x :: back) := by
          rw [← assignAll_move hm hmove, ← assignAll_append, List.append_assoc,
            List.singleton_append]

/-- A value that nothing reads before it is overwritten makes no difference. -/
theorem assignAll_overwritten {t e : String} {between back : List (String × String)}
    (h : ∀ p ∈ between ++ [(t, e)], t ∉ Text.referencedFields p.2) (hk : t ∉ keys between)
    (record : String → V) (v : V) :
    m.assignAll (Function.update record t v) (between ++ (t, e) :: back) =
      m.assignAll record (between ++ (t, e) :: back) := by
  induction between generalizing record with
  | nil =>
    have he : t ∉ Text.referencedFields e := h (t, e) (by simp)
    simp only [List.nil_append, assignAll_cons, assign, eval_update hm he, Function.update_idem]
  | cons p rest ih =>
    simp only [keys_cons, List.mem_cons, not_or] at hk
    have hp : t ∉ Text.referencedFields p.2 := h p (by simp)
    have hstep : m.assign (Function.update record t v) p =
        Function.update (m.assign record p) t v := by
      simp only [assign, eval_update hm hp]
      exact Function.update_comm hk.1 _ _ record
    rw [List.cons_append, assignAll_cons, hstep, assignAll_cons]
    exact ih (fun q hq => h q (by simp_all)) hk.2 _

/-- Of the assignments to a target the last one alone counts, if nothing reads the others. -/
theorem assignAll_latest {assignments : List (String × String)} (h : Unread assignments)
    (record : String → V) :
    m.assignAll record (latest assignments) = m.assignAll record assignments := by
  induction assignments generalizing record with
  | nil => rfl
  | cons p rest ih =>
    have hrest := ih fun front between back t e e' heq =>
      h (p :: front) between back t e e' (by rw [heq]; rfl)
    rw [latest]
    split
    next hmem =>
      obtain ⟨between, e', back, rfl, hk⟩ := split_key hmem
      rw [hrest, assignAll_cons, assign,
        assignAll_overwritten hm (h [] between back p.1 p.2 e' rfl) hk]
    next => rw [assignAll_cons, assignAll_cons, hrest]

theorem assignAll_ofPairs {assignments : List (String × String)} (h : Faithful assignments)
    (record : String → V) :
    m.assignAll record (ofPairs assignments) = m.assignAll record assignments := by
  rw [← assignAll_latest hm h.unread]
  exact (assignAll_perm hm (latest_perm_ofPairs assignments) (keys_latest_nodup assignments)
    h.in_order record).symm

end Local
end Machine

/-- Merging the runs of assignments among accepted actions: whatever expressions and other
processors mean, it changes no result exactly when no run assigns a target twice; where expressions
read only the fields that they reference, exactly when all fields are derived as before, and in
particular when every run is faithful. -/
theorem merging_exact {actions : List Action} (haccepted : ∀ a ∈ actions, a.check.accepts) :
    ∃ parts merged single, Action.parts actions = .ok parts ∧
      Action.processors actions = .ok merged ∧ actions.mapM Action.processor = .ok single ∧
      ((∀ (V : Type) (m : Machine V) record, m.run merged record = m.run single record) ↔
        ∀ assignments, .run assignments ∈ parts → (keys assignments).Nodup) ∧
      ((∀ (V : Type) (m : Machine V), m.Local →
          ∀ record, m.run merged record = m.run single record) ↔
        Derivation.machine.run merged .initial = Derivation.machine.run single .initial) ∧
      ((∀ assignments, .run assignments ∈ parts → Faithful assignments) →
        ∀ (V : Type) (m : Machine V), m.Local →
          ∀ record, m.run merged record = m.run single record) := by
  obtain ⟨parts, hparts⟩ := Action.exists_parts haccepted
  refine ⟨parts, parts.map Part.merged, parts.flatMap Part.single, hparts, ?_, ?_, ?_, ?_, ?_⟩
  · rw [Action.processors_eq_parts, hparts]
    rfl
  · rw [Action.mapM_processor_eq_parts, hparts]
    rfl
  · constructor
    · exact fun h assignments ha => Machine.keys_nodup_of_run_eq h ha
    · intro h V m
      refine m.run_merged fun assignments ha record => ?_
      rw [ofPairs_eq_self (h assignments ha)]
  · exact Derivation.run_eq_iff
  · intro h V m hm
    exact m.run_merged fun assignments ha => Machine.assignAll_ofPairs hm (h assignments ha)

theorem merging_exact_overwritten :
    let actions := [Action.copy "A" "1", .concat "B" ["2", "3"], .copy "A" "4"]
    (∀ a ∈ actions, a.check.accepts) ∧
      ∃ merged single, Action.processors actions = .ok merged ∧
        actions.mapM Action.processor = .ok single ∧
        ∀ (V : Type) (m : Machine V), m.Local →
          ∀ record, m.run merged record = m.run single record := by
  intro actions
  have haccepted : ∀ a ∈ actions, a.check.accepts := by decide +kernel
  obtain ⟨parts, merged, single, hparts, hmerged, hsingle, -, -, hfaithful⟩ :=
    merging_exact haccepted
  obtain rfl : parts = [.run [("A", "1"), ("B", "23"), ("A", "4")]] :=
    Except.ok.inj (hparts.symm.trans rfl)
  refine ⟨haccepted, merged, single, hmerged, hsingle, hfaithful fun assignments ha => ?_⟩
  obtain rfl : assignments = [("A", "1"), ("B", "23"), ("A", "4")] := by simpa using ha
  exact faithful_of_plain (by decide)

/-- The machine for which an expression is the fields that it references, written one after the
other, and itself where there are none. -/
def Machine.joining : Machine String where
  eval expression record :=
    if Text.referencedFields expression = [] then expression
    else String.join ((Text.referencedFields expression).map record)
  other _ record := record

theorem Machine.joining_local : joining.Local := by
  intro expression record record' h
  simp only [joining, List.map_congr_left h]

/-- A field that is set and then doubled is doubled as it was before it was set. -/
theorem merging_drops_assignment :
    let actions := [Action.copy "A" "1", .concat "A" ["${A}", "${A}"]]
    (∀ a ∈ actions, a.check.accepts) ∧ Rule.resolveActions { actions } = .ok { actions } ∧
      ∃ merged single, Action.processors actions = .ok merged ∧
        actions.mapM Action.processor = .ok single ∧ Machine.joining.Local ∧
        Machine.joining.run merged (fun _ => "0") "A" = "00" ∧
        Machine.joining.run single (fun _ => "0") "A" = "11" := by
  refine ⟨by decide +kernel, ?_, _, _, rfl, rfl, Machine.joining_local, ?_, ?_⟩
  · exact Rule.resolveActions_eq_ok.mpr ⟨by decide +kernel, rfl⟩
  · decide +kernel
  · decide +kernel

end EventRules

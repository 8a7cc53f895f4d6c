import EventRules.Proofs.Dependency.Graph
import Mathlib.Data.Fintype.Pigeonhole
import Mathlib.Data.Set.Finite.Basic
import Mathlib.Logic.Relation
import Mathlib.Order.Bounds.Basic

/-! Cycles of direct dependencies, and the elimination that finds the items from which they are
reached: what it leaves of a list is the largest part in which every member depends on another. -/
namespace EventRules
open Relation

/-- Chains of direct dependencies lead from the item to another one and back. -/
def OnCycle (R : ℕ → ℕ → Prop) (i : ℕ) : Prop :=
  ∃ j, j ≠ i ∧ TransGen R i j ∧ TransGen R j i

/-- A chain of direct dependencies leads from the item onto a cycle. -/
def LeadsToCycle (R : ℕ → ℕ → Prop) (i : ℕ) : Prop := ∃ j, ReflTransGen R i j ∧ OnCycle R j

/-- Every member depends on a member. -/
def SelfBound (R : ℕ → ℕ → Prop) (members : Set ℕ) : Prop := ∀ i ∈ members, ∃ j ∈ members, R i j

section Relation

variable {R : ℕ → ℕ → Prop}

theorem onCycle_of_transGen (hR : ∀ i, ¬ R i i) {i : ℕ} (h : TransGen R i i) : OnCycle R i := by
  obtain ⟨j, hij, hji⟩ := TransGen.head'_iff.mp h
  have hne : j ≠ i := by
    rintro rfl
    exact hR _ hij
  refine ⟨j, hne, .single hij, ?_⟩
  exact (reflTransGen_iff_eq_or_transGen.mp hji).resolve_left (Ne.symm hne)

theorem OnCycle.transGen {i : ℕ} (h : OnCycle R i) : TransGen R i i := by
  obtain ⟨j, -, hij, hji⟩ := h
  exact hij.trans hji

theorem LeadsToCycle.exists_dependency {i : ℕ} (h : LeadsToCycle R i) :
    ∃ j, R i j ∧ LeadsToCycle R j := by
  obtain ⟨k, hik, hk⟩ := h
  rcases ReflTransGen.cases_head hik with rfl | ⟨j, hij, hjk⟩
  · obtain ⟨j, hij, hji⟩ := TransGen.head'_iff.mp hk.transGen
    exact ⟨j, hij, i, hji, hk⟩
  · exact ⟨j, hij, k, hjk, hk⟩

/-- Within a finite set whose members depend on members, every chain runs into a cycle. -/
theorem SelfBound.leadsToCycle (hR : ∀ i, ¬ R i i) {members : Set ℕ} (hf : members.Finite)
    (hs : SelfBound R members) {i : ℕ} (hi : i ∈ members) : LeadsToCycle R i := by
  have hnext : ∀ x : members, ∃ y : members, R x y := fun x => by
    obtain ⟨y, hy, hxy⟩ := hs x x.2
    exact ⟨⟨y, hy⟩, hxy⟩
  choose next hstep using hnext
  let visit : ℕ → members := fun n => next^[n] ⟨i, hi⟩
  have hone (n : ℕ) : R (visit n) (visit (n + 1)) := by
    simp only [visit, Function.iterate_succ_apply']
    exact hstep _
  have hreach (m k : ℕ) : ReflTransGen R (visit m) (visit (m + k)) := by
    induction k with
    | zero => rfl
    | succ k ih => exact ih.tail (hone (m + k))
  have := hf.to_subtype
  obtain ⟨m, n, hmn, heq⟩ := Finite.exists_ne_map_eq_of_infinite visit
  -- the earlier of the two visits to one member lies on a cycle
  wlog hlt : m < n generalizing m n
  · exact this n m hmn.symm heq.symm (by omega)
  obtain ⟨k, rfl⟩ : ∃ k, n = m + 1 + k := ⟨n - (m + 1), by omega⟩
  have hback := hreach (m + 1) k
  rw [← heq] at hback
  refine ⟨visit m, ?_, onCycle_of_transGen hR (.head' (hone m) hback)⟩
  simpa [visit] using hreach 0 m

end Relation

namespace DependencyGraph

variable (g : DependencyGraph)

theorem mem_bound (items : List ℕ) (i : ℕ) :
    i ∈ g.bound items ↔ i ∈ items ∧ ∃ j ∈ items, g.dependsOn i j := by
  simp [bound, hasDependency_eq]

theorem circular_sublist (items : List ℕ) : (g.circular items).Sublist items := by
  fun_induction circular g items with
  | case1 items rest h ih => exact ih.trans List.filter_sublist
  | case2 items rest h => exact .refl _

/-- The elimination stops only where every item depends on another one that is left. -/
theorem circular_selfBound (items : List ℕ) :
    SelfBound (g.dependsOn · ·) {i | i ∈ g.circular items} := by
  fun_induction circular g items with
  | case1 items rest h ih => exact ih
  | case2 items rest h =>
    have hle := List.length_filter_le (fun i => g.hasDependency i items) items
    have heq : rest = items :=
      List.Sublist.eq_of_length_le List.filter_sublist (by simpa using h)
    intro i hi
    obtain ⟨-, j, hj, hij⟩ := (g.mem_bound items i).mp (heq ▸ hi : i ∈ rest)
    exact ⟨j, hj, hij⟩

/-- No round drops a member of a set whose members depend on members. -/
theorem subset_circular (items : List ℕ) {members : Set ℕ}
    (hs : SelfBound (g.dependsOn · ·) members) (hm : members ⊆ {i | i ∈ items}) :
    members ⊆ {i | i ∈ g.circular items} := by
  fun_induction circular g items with
  | case1 items rest h ih =>
    apply ih
    intro i hi
    obtain ⟨j, hj, hij⟩ := hs i hi
    exact (g.mem_bound items i).mpr ⟨hm hi, j, hm hj, hij⟩
  | case2 items rest h => exact hm

theorem circular_isGreatest (items : List ℕ) :
    IsGreatest {members : Set ℕ | members ⊆ {i | i ∈ items} ∧ SelfBound (g.dependsOn · ·) members}
      {i | i ∈ g.circular items} :=
  ⟨⟨(g.circular_sublist items).subset, g.circular_selfBound items⟩,
    fun _ hm => g.subset_circular items hm.2 hm.1⟩

theorem unresolvable_sublist : g.unresolvable.Sublist g.items :=
  (g.circular_sublist _).trans List.filter_sublist

theorem unresolvable_ascending : g.unresolvable.Pairwise (· < ·) :=
  List.pairwise_lt_range.sublist g.unresolvable_sublist

theorem leadsToCycle_of_mem_unresolvable {i : ℕ} (hi : i ∈ g.unresolvable) :
    LeadsToCycle (g.dependsOn · ·) i := by
  refine (g.circular_selfBound g.dependent).leadsToCycle ?_ (List.finite_toSet _) hi
  intro j hj
  exact dependsOn_ne hj rfl

/-- Where only items of the graph are read, all items that lead to a cycle are found. -/
theorem mem_unresolvable_of_leadsToCycle
    (hg : ∀ i j, g.dependsOn i j → j < g.size) {i : ℕ}
    (hi : LeadsToCycle (g.dependsOn · ·) i) : i ∈ g.unresolvable := by
  have hs : SelfBound (g.dependsOn · ·) {i | LeadsToCycle (g.dependsOn · ·) i} := fun i hi => by
    obtain ⟨j, hij, hj⟩ := hi.exists_dependency
    exact ⟨j, hj, hij⟩
  have hm : {i | LeadsToCycle (g.dependsOn · ·) i} ⊆ {i | i ∈ g.dependent} := fun i hi => by
    obtain ⟨j, hij, -⟩ := hi.exists_dependency
    simp only [dependent, hasDependency_eq, Set.mem_ofPred_eq, List.mem_filter, mem_items,
      List.any_eq_true]
    exact ⟨dependsOn_lt hij, j, hg i j hij, hij⟩
  exact g.subset_circular g.dependent hs hm hi

end DependencyGraph

section Items

variable {α : Type} (relation : α → α → Bool) (items : List α)

theorem not_depends_self (i : ℕ) : ¬ Depends relation items i i := fun h => h.1 rfl

theorem ofItems_dependsOn_eq :
    (fun i j => (DependencyGraph.ofItems relation items).dependsOn i j = true) =
      Depends relation items := by
  funext i j
  exact propext (DependencyGraph.ofItems_dependsOn relation items i j)

/-- The items that can never be put in order are those from which a cycle is reached. -/
theorem mem_unresolvable (i : ℕ) : i ∈ (DependencyGraph.ofItems relation items).unresolvable ↔
    LeadsToCycle (Depends relation items) i := by
  rw [← ofItems_dependsOn_eq]
  constructor
  · exact DependencyGraph.leadsToCycle_of_mem_unresolvable _
  · apply DependencyGraph.mem_unresolvable_of_leadsToCycle
    intro i j hij
    rw [DependencyGraph.ofItems_size]
    exact ((DependencyGraph.ofItems_dependsOn relation items i j).mp hij).lt_right

theorem unresolvable_eq_nil_iff : (DependencyGraph.ofItems relation items).unresolvable = [] ↔
    ∀ i, ¬ OnCycle (Depends relation items) i := by
  rw [List.eq_nil_iff_forall_not_mem]
  simp only [mem_unresolvable]
  constructor
  · exact fun h i hi => h i ⟨i, .refl, hi⟩
  · rintro h i ⟨j, -, hj⟩
    exact h j hj

end Items

section Permutation

variable {α : Type} {relation : α → α → Bool} {items : List α} {order : List ℕ}

theorem LeadsToCycle.lift {R S : ℕ → ℕ → Prop} (f : ℕ → ℕ) (hS : ∀ i, ¬ S i i)
    (hf : ∀ i j, R i j → S (f i) (f j)) {i : ℕ} (h : LeadsToCycle R i) :
    LeadsToCycle S (f i) := by
  obtain ⟨j, hij, hj⟩ := h
  exact ⟨f j, hij.lift f hf, onCycle_of_transGen hS (hj.transGen.lift f hf)⟩

/-- In a list whose items have been permuted the same items lead to cycles. -/
theorem leadsToCycle_pick (ho : order.Perm (List.range items.length)) {i a : ℕ}
    (hi : order[i]? = some a) :
    LeadsToCycle (Depends relation (pick items order)) i ↔
      LeadsToCycle (Depends relation items) a := by
  have hlt : ∀ k ∈ order, k < items.length := fun k hk => by simpa using ho.mem_iff.mp hk
  have hnodup : order.Nodup := ho.nodup_iff.mpr List.nodup_range
  have hlen : (pick items order).length = order.length := by
    rw [pick, List.length_filterMap_eq_countP, List.countP_eq_length]
    intro k hk
    simp [hlt k hk]
  have hat {k : ℕ} (hk : k < order.length) : order[k]? = some (order.getD k 0) := by
    simp [List.getD, hk]
  have hfind {k : ℕ} (hk : k < items.length) : order[order.idxOf k]? = some k :=
    List.getElem?_idxOf (ho.mem_iff.mpr (by simpa using hk))
  constructor
  · intro h
    have := h.lift (order.getD · 0) (not_depends_self relation items) fun i j hij =>
      (depends_pick hlt hnodup (hat (hlen ▸ hij.lt_left)) (hat (hlen ▸ hij.lt_right))).mp hij
    simpa [List.getD, hi] using this
  · intro h
    have := h.lift order.idxOf (not_depends_self relation (pick items order)) fun a b hab =>
      (depends_pick hlt hnodup (hfind hab.lt_left) (hfind hab.lt_right)).mpr hab
    obtain ⟨hi', rfl⟩ := List.getElem?_eq_some_iff.mp hi
    rwa [hnodup.idxOf_getElem] at this

/-- Permuting the items permutes those that can never be put in order. -/
theorem pick_unresolvable_perm (ho : order.Perm (List.range items.length)) :
    (pick order (DependencyGraph.ofItems relation (pick items order)).unresolvable).Perm
      (DependencyGraph.ofItems relation items).unresolvable := by
  have hnodup : order.Nodup := ho.nodup_iff.mpr List.nodup_range
  have hasc := (DependencyGraph.ofItems relation (pick items order)).unresolvable_ascending
  rw [List.perm_ext_iff_of_nodup]
  · intro a
    simp only [mem_pick, mem_unresolvable]
    constructor
    · rintro ⟨i, hi, hia⟩
      exact (leadsToCycle_pick ho hia).mp hi
    · intro ha
      obtain ⟨b, hab, -⟩ := ha.exists_dependency
      have hmem : a ∈ order := ho.mem_iff.mpr (by simpa using hab.lt_left)
      have hia := List.getElem?_idxOf hmem
      exact ⟨_, (leadsToCycle_pick ho hia).mpr ha, hia⟩
  · rw [pick, List.Nodup, List.pairwise_filterMap]
    refine hasc.imp fun {i j} hij a ha b hb hab => ?_
    subst hab
    obtain ⟨hi', rfl⟩ := List.getElem?_eq_some_iff.mp ha
    obtain ⟨hj', hab⟩ := List.getElem?_eq_some_iff.mp hb
    have := hnodup.getElem_inj_iff.mp hab
    omega
  · exact (DependencyGraph.unresolvable_ascending _).imp Nat.ne_of_lt

end Permutation
end EventRules

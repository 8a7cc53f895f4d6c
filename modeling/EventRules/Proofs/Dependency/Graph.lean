import EventRules.Dependency.Graph
import Mathlib.Data.List.Basic
import Mathlib.Data.List.Infix
import Mathlib.Data.List.Nodup
import Mathlib.Data.List.Perm.Basic

/-! Direct dependence between the items of a list, the places of items, and what one move of the
reordering pass does to an order. -/
namespace EventRules

variable {α : Type}

/-- The item at one place reads what the item at another place writes. -/
def Depends (relation : α → α → Bool) (items : List α) (i j : ℕ) : Prop :=
  j ≠ i ∧ ∃ a ∈ items[i]?, ∃ b ∈ items[j]?, relation a b

/-- No item of the list stands before one that it depends on. -/
def Respects (relation : α → α → Bool) (items : List α) : Prop :=
  items.Pairwise fun a b => ¬ relation a b

theorem Depends.lt_left {relation : α → α → Bool} {items : List α} {i j : ℕ}
    (h : Depends relation items i j) : i < items.length := by
  obtain ⟨-, a, ha, -⟩ := h
  exact (List.getElem?_eq_some_iff.mp ha).1

theorem Depends.lt_right {relation : α → α → Bool} {items : List α} {i j : ℕ}
    (h : Depends relation items i j) : j < items.length := by
  obtain ⟨-, -, -, b, hb, -⟩ := h
  exact (List.getElem?_eq_some_iff.mp hb).1

namespace DependencyGraph

theorem mem_items (g : DependencyGraph) (i : ℕ) : i ∈ g.items ↔ i < g.size := by
  simp [items]

@[simp] theorem ofItems_size (relation : α → α → Bool) (items : List α) :
    (ofItems relation items).size = items.length := by
  simp [ofItems, size]

theorem dependsOn_iff (g : DependencyGraph) (i j : ℕ) :
    g.dependsOn i j = true ↔ j ≠ i ∧ j ∈ g.readsOf i := by
  simp [dependsOn]

theorem dependsOn_ne {g : DependencyGraph} {i j : ℕ} (h : g.dependsOn i j) : j ≠ i :=
  ((g.dependsOn_iff i j).mp h).1

theorem dependsOn_lt {g : DependencyGraph} {i j : ℕ} (h : g.dependsOn i j) : i < g.size := by
  by_contra hi
  have hr : g.readsOf i = [] := by simp [readsOf, List.getD, List.getElem?_eq_none (not_lt.mp hi)]
  have := ((g.dependsOn_iff i j).mp h).2
  simp [hr] at this

theorem ofItems_readsOf (relation : α → α → Bool) (items : List α) (i j : ℕ) :
    j ∈ (ofItems relation items).readsOf i ↔
      ∃ a ∈ items[i]?, ∃ b ∈ items[j]?, relation a b := by
  cases hi : items[i]? with
  | none => simp [readsOf, ofItems, hi]
  | some a =>
    simp only [readsOf, ofItems, List.getD, List.getElem?_map, hi, Option.map_some,
      Option.getD_some, List.mem_map, List.mem_filter, Prod.exists, exists_eq_right,
      List.mem_zipIdx_iff_getElem?, Option.mem_def, Option.some.injEq, exists_eq_left']

/-- The graph of a list holds exactly the direct dependencies between its items. -/
theorem ofItems_dependsOn (relation : α → α → Bool) (items : List α) (i j : ℕ) :
    (ofItems relation items).dependsOn i j = true ↔ Depends relation items i j := by
  rw [dependsOn_iff, ofItems_readsOf, Depends]

theorem mem_dependencies (g : DependencyGraph) (i j : ℕ) :
    j ∈ g.dependencies i ↔ j < g.size ∧ g.dependsOn i j := by
  rw [dependencies_eq, List.mem_filter, mem_items]

theorem dependencies_ascending (g : DependencyGraph) (i : ℕ) :
    (g.dependencies i).Pairwise (· < ·) := by
  rw [dependencies_eq]
  exact List.pairwise_lt_range.filter _

/-- An order with one item before another one, cut at both. -/
theorem split_order {order : List ℕ} {item dependency : ℕ} (hd : dependency ∈ order)
    (h : order.idxOf item < order.idxOf dependency) :
    ∃ front between back, order = front ++ item :: between ++ dependency :: back ∧
      item ∉ front ∧ dependency ∉ front ++ item :: between := by
  obtain ⟨before, back, rfl, hd'⟩ := List.eq_append_cons_of_mem hd
  have hi : item ∈ before := by
    by_contra hi
    have hle : before.length ≤ (before ++ dependency :: back).idxOf item := by
      rw [List.idxOf_append_of_notMem hi]
      omega
    rw [List.idxOf_append_of_notMem hd', List.idxOf_cons_self] at h
    omega
  obtain ⟨front, between, rfl, hf⟩ := List.eq_append_cons_of_mem hi
  exact ⟨front, between, back, by simp, hf, by simpa using hd'⟩

theorem insertIdx_length_append (front back : List ℕ) (x : ℕ) :
    (front ++ back).insertIdx front.length x = front ++ x :: back := by
  induction front with
  | nil => rfl
  | cons y front ih => simp [ih]

/-- A dependency that stands after an item moves to the place just before it. -/
theorem promote_split {front between back : List ℕ} {item dependency : ℕ}
    (hi : item ∉ front) (hd : dependency ∉ front ++ item :: between) :
    promote item (front ++ item :: between ++ dependency :: back) dependency =
      front ++ dependency :: item :: (between ++ back) := by
  have hplace : (front ++ item :: between ++ dependency :: back).idxOf item = front.length := by
    rw [List.append_assoc, List.idxOf_append_of_notMem hi]
    simp
  have hdep : (front ++ item :: between ++ dependency :: back).idxOf dependency =
      (front ++ item :: between).length := by
    rw [List.idxOf_append_of_notMem hd]
    simp
  have herase : (front ++ item :: between ++ dependency :: back).erase dependency =
      front ++ item :: (between ++ back) := by
    rw [List.erase_append_right _ hd]
    simp
  simp only [promote, hplace, hdep, moveTo, herase]
  rw [if_pos (by simp), insertIdx_length_append]

theorem promote_eq_self {order : List ℕ} {item dependency : ℕ}
    (h : ¬ order.idxOf item < order.idxOf dependency) : promote item order dependency = order := by
  simp [promote, h]

theorem promote_perm {order : List ℕ} (item : ℕ) {dependency : ℕ} (hd : dependency ∈ order) :
    (promote item order dependency).Perm order := by
  by_cases h : order.idxOf item < order.idxOf dependency
  · have hlen := List.length_erase_of_mem hd
    have hlt := List.idxOf_lt_length_of_mem hd
    simp only [promote, if_pos h, moveTo]
    exact (List.perm_insertIdx _ _ (by omega)).trans (List.perm_cons_erase hd).symm
  · rw [promote_eq_self h]

theorem foldl_promote_perm {order : List ℕ} (item : ℕ) {dependencies : List ℕ}
    (hd : ∀ d ∈ dependencies, d ∈ order) :
    (dependencies.foldl (promote item) order).Perm order := by
  induction dependencies generalizing order with
  | nil => rfl
  | cons d rest ih =>
    have hp := promote_perm item (hd d (by simp))
    refine (ih fun e he => hp.mem_iff.mpr (hd e (by simp [he]))).trans hp

theorem settle_perm (g : DependencyGraph) {order : List ℕ} (item : ℕ)
    (ho : order.Perm g.items) : (g.settle order item).Perm g.items := by
  refine (foldl_promote_perm item fun d hd => ?_).trans ho
  exact ho.mem_iff.mpr ((g.mem_items d).mpr ((g.mem_dependencies item d).mp hd).1)

theorem foldl_settle_perm (g : DependencyGraph) (settled : List ℕ) {order : List ℕ}
    (ho : order.Perm g.items) : (settled.foldl g.settle order).Perm g.items := by
  induction settled generalizing order with
  | nil => exact ho
  | cons i rest ih => exact ih (g.settle_perm i ho)

/-- The order of a graph holds each item once. -/
theorem order_perm (g : DependencyGraph) : g.order.Perm g.items :=
  g.foldl_settle_perm _ (.refl _)

theorem mem_order (g : DependencyGraph) (i : ℕ) : i ∈ g.order ↔ i < g.size := by
  rw [g.order_perm.mem_iff, mem_items]

theorem order_nodup (g : DependencyGraph) : g.order.Nodup :=
  g.order_perm.nodup_iff.mpr List.nodup_range

end DependencyGraph

section Pick

variable (items : List α)

theorem mem_pick {places : List ℕ} {a : α} :
    a ∈ pick items places ↔ ∃ i ∈ places, items[i]? = some a := by
  simp [pick]

/-- Items at places that all exist are found again under the same position. -/
theorem getElem?_pick {places : List ℕ} (h : ∀ i ∈ places, i < items.length) (k : ℕ) :
    (pick items places)[k]? = places[k]?.bind (items[·]?) := by
  induction places generalizing k with
  | nil => simp [pick]
  | cons i rest ih =>
    have hi := List.getElem?_eq_getElem (h i (by simp))
    have hr := fun k => ih (fun j hj => h j (by simp [hj])) k
    simp only [pick] at hr
    cases k with
    | zero => simp [pick, hi]
    | succ k => simpa [pick, hi] using hr k

theorem respects_pick (relation : α → α → Bool) {places : List ℕ} (h : places.Nodup) :
    Respects relation (pick items places) ↔
      places.Pairwise fun i j => ¬ Depends relation items i j := by
  rw [Respects, pick, List.pairwise_filterMap]
  constructor
  · intro hp
    refine hp.imp fun {i j} hij hd => ?_
    obtain ⟨-, a, ha, b, hb, hab⟩ := hd
    exact hij a ha b hb hab
  · intro hp
    refine List.Pairwise.imp₂ (fun i j hne hij a ha b hb hab => ?_) h hp
    exact hij ⟨Ne.symm hne, a, ha, b, hb, hab⟩

variable {items}

/-- Picked items depend on each other as they did at their old places. -/
theorem depends_pick {relation : α → α → Bool} {places : List ℕ}
    (hlt : ∀ k ∈ places, k < items.length) (hnodup : places.Nodup) {i j a b : ℕ}
    (hi : places[i]? = some a) (hj : places[j]? = some b) :
    Depends relation (pick items places) i j ↔ Depends relation items a b := by
  have hne : j ≠ i ↔ b ≠ a := by
    obtain ⟨hi', rfl⟩ := List.getElem?_eq_some_iff.mp hi
    obtain ⟨hj', rfl⟩ := List.getElem?_eq_some_iff.mp hj
    rw [Ne, Ne, List.Nodup.getElem_inj_iff hnodup]
  simp only [Depends, getElem?_pick items hlt, hi, hj, hne, Option.bind_some]

end Pick

end EventRules

import EventRules.Proofs.Dependency.Component

/-! What the pass leaves in place. Of two items the one to which the least route leads stands first;
so items on which the same others depend keep their order, among them all items on which none
depends. -/
namespace EventRules
open Relation

/-- Some route to the one item stands before all routes to the other one. -/
def ReachedFirst (R : ℕ → ℕ → Prop) (x y : ℕ) : Prop :=
  ∃ path, Reaches R path x ∧ ∀ other, Reaches R other y → Precedes (path ++ [x]) (other ++ [y])

section Relation

variable {R : ℕ → ℕ → Prop} {path : List ℕ} {i k x y : ℕ}

/-- A route leads as well to anything else on which its last item depends. -/
theorem Reaches.retarget (h : Reaches R path x) (hy : ∀ k, R k x → R k y) : Reaches R path y :=
  ⟨h.1, fun k hk => hy k (h.2 k hk)⟩

/-- The item at which a climb begins needs the one at which it ends. -/
theorem Climbs.reflTransGen (h : Climbs R (i :: path)) (hk : (i :: path).getLast? = some k) :
    ReflTransGen R i k := by
  have hchain : (i :: path).IsChain R := h.imp fun _ _ hab => hab.2
  rw [List.getLast?_eq_getLast_of_ne_nil (List.cons_ne_nil i path), Option.some_inj] at hk
  exact List.relationReflTransGen_of_exists_isChain_cons path hchain hk

end Relation

namespace DependencyGraph

variable (g : DependencyGraph) {x y : ℕ}

theorem reachedFirst_iff : ReachedFirst (g.dependsOn · ·) x y ↔
    Precedes (g.standing g.size x) (g.standing g.size y) := by
  constructor
  · rintro ⟨path, hpath, hleast⟩
    obtain ⟨other, hother, hreach, -⟩ := g.standing_spec g.size y
    rw [hother]
    exact Precedes.of_not_of (g.standing_size_least hpath) (hleast other hreach)
  · intro h
    obtain ⟨path, hpath, hreach, -⟩ := g.standing_spec g.size x
    refine ⟨path, hreach, fun other hother => ?_⟩
    rw [← hpath]
    exact h.of_of_not (g.standing_size_least hother)

theorem SortedBy.idxOf_lt_iff {route : ℕ → List ℕ} {order : List ℕ} (hs : SortedBy route order)
    (hx : x ∈ order) (hy : y ∈ order) :
    order.idxOf x < order.idxOf y ↔ Precedes (route x) (route y) := by
  refine ⟨hs.precedes hy, fun h => ?_⟩
  by_contra hle
  rcases (not_lt.mp hle).eq_or_lt with heq | hlt
  · rw [(List.idxOf_inj hy).mp heq] at h
    exact precedes_irrefl _ h
  · exact (hs.precedes hx hlt).asymm h

/-- Of two items that one stands first which is reached first. -/
theorem idxOf_order_lt_iff (hx : x < g.size) (hy : y < g.size) :
    g.order.idxOf x < g.order.idxOf y ↔ ReachedFirst (g.dependsOn · ·) x y := by
  rw [g.reachedFirst_iff]
  exact g.order_sorted.idxOf_lt_iff ((g.mem_order x).mpr hx) ((g.mem_order y).mpr hy)

variable {g}

/-- Two items keep their order if every route to the later one leads to the earlier one as well or
begins behind it. -/
theorem reachedFirst_of_lt (hxy : x < y) (h : ∀ i path, Reaches (g.dependsOn · ·) (i :: path) y →
    Reaches (g.dependsOn · ·) (i :: path) x ∨ x < i) : ReachedFirst (g.dependsOn · ·) x y := by
  rw [g.reachedFirst_iff]
  obtain ⟨path, hpath, hreach, -⟩ := g.standing_spec g.size y
  rw [hpath]
  cases path with
  | nil => exact .of_not_of (g.standing_size_least (reaches_nil _ x)) (by simp [hxy])
  | cons i path =>
    rcases h i path hreach with hx | hi
    · refine .of_not_of (g.standing_size_least hx) ?_
      rw [append_precedes_append]
      simp [hxy]
    · exact .of_not_of (g.standing_size_least (reaches_nil _ x)) (by simp [hi])

/-- Items on which the same others depend are not moved past each other. -/
theorem reachedFirst_of_alike (hxy : x < y) (h : ∀ k, g.dependsOn k y → g.dependsOn k x) :
    ReachedFirst (g.dependsOn · ·) x y :=
  reachedFirst_of_lt hxy fun _ _ hreach => .inl (hreach.retarget h)

/-- An item that needs no later one keeps its place before it if all that depends on the later one
and is needed from further up depends on the earlier one as well. -/
theorem reachedFirst_of_needed (hxy : x < y) (hfree : ¬ TransGen (g.dependsOn · ·) x y)
    (h : ∀ i k, i < x → ReflTransGen (g.dependsOn · ·) i k → g.dependsOn k y → g.dependsOn k x) :
    ReachedFirst (g.dependsOn · ·) x y := by
  refine reachedFirst_of_lt hxy fun i path hreach => ?_
  rcases lt_trichotomy i x with hi | rfl | hi
  · exact .inl ⟨hreach.1, fun k hk => h i k hi (hreach.1.reflTransGen hk) (hreach.2 k hk)⟩
  · -- by such a route the earlier item would need the later one
    exact absurd hreach.transGen hfree
  · exact .inr hi

/-- The order of items on which the same others depend is their old one. -/
theorem order_filter_alike {p : ℕ → Bool}
    (h : ∀ x y, p x → p y → ∀ k, g.dependsOn k y → g.dependsOn k x) :
    g.order.filter p = g.items.filter p := by
  have hitems : SortedBy (g.standing g.size) (g.items.filter p) := by
    refine (List.pairwise_lt_range.filter p).imp_of_mem fun {x y} hx hy hxy => ?_
    have halike := h x y (List.mem_filter.mp hx).2 (List.mem_filter.mp hy).2
    exact g.reachedFirst_iff.mp (reachedFirst_of_alike hxy halike)
  refine SortedBy.eq_of_mem_iff (g.order_sorted.filter p) hitems fun x => ?_
  simp only [List.mem_filter, g.mem_order, g.mem_items]

end DependencyGraph

section Items

variable {α : Type} {relation : α → α → Bool} {items : List α} {i j : ℕ}

theorem idxOf_lt_iff_reachedFirst (hi : i < items.length) (hj : j < items.length) :
    (DependencyGraph.ofItems relation items).order.idxOf i <
        (DependencyGraph.ofItems relation items).order.idxOf j ↔
      ReachedFirst (Depends relation items) i j := by
  rw [← ofItems_dependsOn_eq]
  exact DependencyGraph.idxOf_order_lt_iff _ (by simpa using hi) (by simpa using hj)

/-- Items on which the same others depend keep their order. -/
theorem idxOf_lt_of_alike (hij : i < j) (hj : j < items.length)
    (h : ∀ k, Depends relation items k j → Depends relation items k i) :
    (DependencyGraph.ofItems relation items).order.idxOf i <
      (DependencyGraph.ofItems relation items).order.idxOf j := by
  rw [idxOf_lt_iff_reachedFirst (hij.trans hj) hj]
  rw [← ofItems_dependsOn_eq] at h ⊢
  exact DependencyGraph.reachedFirst_of_alike hij h

section Alike

variable {p : α → Bool} (halike : ∀ a b c, p a → p b → relation c b → relation c a)
  (hfree : ∀ a b, p a → p b → ¬ relation a b)
include halike hfree

/-- What depends on one of some like items depends on all of them. -/
theorem Depends.of_alike (hi : i ∈ placesOf p items) (hj : j ∈ placesOf p items) {k : ℕ}
    (h : Depends relation items k j) : Depends relation items k i := by
  obtain ⟨a, ha, hpa⟩ := (mem_placesOf p items).mp hi
  obtain ⟨b, hb, hpb⟩ := (mem_placesOf p items).mp hj
  obtain ⟨-, c, hc, b', hb', hcb⟩ := h
  obtain rfl : b = b' := Option.some.inj (hb.symm.trans hb')
  refine ⟨?_, c, hc, a, ha, halike a b c hpa hpb hcb⟩
  rintro rfl
  obtain rfl : a = c := Option.some.inj (ha.symm.trans hc)
  exact hfree a b hpa hpb hcb

/-- Arranging a list keeps the order of like items. -/
theorem filter_arranged_of_alike : (arranged relation items).filter p = items.filter p := by
  have hplace {i : ℕ} (hi : (items[i]?).any p) : i ∈ placesOf p items := by
    rwa [mem_placesOf, ← Option.any_eq_true]
  have horder := (DependencyGraph.ofItems relation items).order_filter_alike
    (p := fun i => (items[i]?).any p) fun x y hx hy k hk => by
      rw [DependencyGraph.ofItems_dependsOn] at hk ⊢
      exact hk.of_alike halike hfree (hplace hx) (hplace hy)
  rw [DependencyGraph.items, DependencyGraph.ofItems_size] at horder
  rw [arranged, ← pick_filter, horder, pick_filter, pick_range]

end Alike

end Items

/-- The pass leaves in place what it need not move, whether there are cycles or not: the items on
which no other one depends keep their order, and a list in which no item depends on a later one
stays as it is. -/
theorem order_disturbs_nothing {α : Type} (relation : α → α → Bool) (items : List α) :
    let order := (DependencyGraph.ofItems relation items).order
    order.Perm (List.range items.length) ∧
    (∀ i j, i < j → j < items.length → (∀ k, ¬ Depends relation items k i) →
      (∀ k, ¬ Depends relation items k j) → order.idxOf i < order.idxOf j) ∧
    ((∀ i j, Depends relation items i j → j < i) → order = List.range items.length) := by
  intro order
  refine ⟨order_ofItems_perm relation items, fun i j hij hj _ hunread => ?_, fun h => ?_⟩
  · exact idxOf_lt_of_alike hij hj fun k hk => absurd hk (hunread k)
  · have hitems := DependencyGraph.order_eq_items (.ofItems relation items) fun a b hab =>
      h a b ((DependencyGraph.ofItems_dependsOn relation items a b).mp hab)
    rwa [DependencyGraph.items, DependencyGraph.ofItems_size] at hitems

/-- Five items of which the first and the third depend on each other, and three of which the last
one depends on the first. -/
theorem order_disturbs_nothing_circle :
    (let relation := fun a b : ℕ => decide ((a, b) ∈ [(0, 3), (0, 2), (2, 0), (4, 3)])
      let order := (DependencyGraph.ofItems relation [0, 1, 2, 3, 4]).order
      (∀ k, ¬ Depends relation [0, 1, 2, 3, 4] k 1 ∧ ¬ Depends relation [0, 1, 2, 3, 4] k 4) ∧
        order = [0, 2, 3, 1, 4] ∧ order.idxOf 1 < order.idxOf 4) ∧
    let relation := fun a b : ℕ => decide ((a, b) ∈ [(2, 0)])
    (∀ i j, Depends relation [0, 1, 2] i j → j < i) ∧
      (DependencyGraph.ofItems relation [0, 1, 2]).order = List.range [0, 1, 2].length := by
  constructor
  · intro relation order
    have hnone : ∀ k < 5, ∀ j ∈ [1, 4],
        ¬ (DependencyGraph.ofItems relation [0, 1, 2, 3, 4]).dependsOn k j := by
      decide +kernel
    have hunread (j : ℕ) (hj : j ∈ [1, 4]) (k : ℕ) : ¬ Depends relation [0, 1, 2, 3, 4] k j :=
      fun hd => hnone k hd.lt_left j hj ((DependencyGraph.ofItems_dependsOn _ _ k j).mpr hd)
    exact ⟨fun k => ⟨hunread 1 (by decide) k, hunread 4 (by decide) k⟩, by decide +kernel,
      (order_disturbs_nothing relation [0, 1, 2, 3, 4]).2.1 1 4 (by decide) (by decide)
        (hunread 1 (by decide)) (hunread 4 (by decide))⟩
  · intro relation
    have hback : ∀ i < 3, ∀ j < 3,
        (DependencyGraph.ofItems relation [0, 1, 2]).dependsOn i j → j < i := by
      decide +kernel
    have hearlier : ∀ i j, Depends relation [0, 1, 2] i j → j < i := fun i j hd =>
      hback i hd.lt_left j hd.lt_right ((DependencyGraph.ofItems_dependsOn _ _ i j).mpr hd)
    exact ⟨hearlier, (order_disturbs_nothing relation [0, 1, 2]).2.2 hearlier⟩

end EventRules

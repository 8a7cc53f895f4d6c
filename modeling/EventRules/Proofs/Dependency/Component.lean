import EventRules.Proofs.Dependency.Repetition
import EventRules.Proofs.Distinct

/-! Parts of a graph that nothing links to the rest. What leads to a cycle, and the routes by which
items stand, are the same in such a part as in the whole graph; so a part of a list whose items
neither depend on the others nor are depended on by them is arranged as it would be alone, and where
no item depends on one of another kind, the kinds keep the order in which they first appear. -/
namespace EventRules

theorem map_precedes_map {f : ℕ → ℕ} (hf : StrictMono f) {p q : List ℕ} :
    Precedes (p.map f) (q.map f) ↔ Precedes p q := by
  induction p generalizing q with
  | nil => simp
  | cons a p ih =>
    cases q with
    | nil => simp
    | cons b q => simp [hf.lt_iff_lt, hf.injective.eq_iff, ih]

/-- One graph is a part of another one: its items keep their order and their dependencies, and no
dependency links it to an item outside. -/
structure IsComponent (h g : DependencyGraph) (f : ℕ → ℕ) : Prop where
  strictMono : StrictMono f
  map : ∀ i j, h.dependsOn i j → g.dependsOn (f i) (f j)
  source : ∀ i j, j < h.size → g.dependsOn i (f j) → ∃ a, f a = i ∧ h.dependsOn a j
  target : ∀ i j, i < h.size → g.dependsOn (f i) j → ∃ b < h.size, f b = j ∧ h.dependsOn i b

namespace IsComponent

variable {h g : DependencyGraph} {f : ℕ → ℕ} (hc : IsComponent h g f)
include hc

theorem reaches_map {path : List ℕ} {x : ℕ} (hp : Reaches (h.dependsOn · ·) path x) :
    Reaches (g.dependsOn · ·) (path.map f) (f x) := by
  induction path using List.reverseRecOn generalizing x with
  | nil => exact reaches_nil _ _
  | append_singleton path i ih =>
    obtain ⟨hi, hlast, hdep⟩ := reaches_append.mp hp
    rw [List.map_append, List.map_singleton]
    refine reaches_append.mpr ⟨ih hi, ?_, hc.map i x hdep⟩
    simpa [hc.strictMono.lt_iff_lt] using hlast

/-- The routes to an item of the part come from routes within it. -/
theorem exists_reaches {path : List ℕ} {x : ℕ} (hx : x < h.size)
    (hp : Reaches (g.dependsOn · ·) path (f x)) :
    ∃ q, path = q.map f ∧ Reaches (h.dependsOn · ·) q x := by
  induction path using List.reverseRecOn generalizing x with
  | nil => exact ⟨[], rfl, reaches_nil _ _⟩
  | append_singleton path i ih =>
    obtain ⟨hi, hlast, hdep⟩ := reaches_append.mp hp
    obtain ⟨a, rfl, hax⟩ := hc.source i x hx hdep
    obtain ⟨q, rfl, hq⟩ := ih (DependencyGraph.dependsOn_lt hax) hi
    refine ⟨q ++ [a], by simp, reaches_append.mpr ⟨hq, ?_, hax⟩⟩
    simpa [hc.strictMono.lt_iff_lt] using hlast

/-- An item stands in the whole by the route by which it stands in its part. -/
theorem standing_map {x : ℕ} (hx : x < h.size) :
    g.standing g.size (f x) = (h.standing h.size x).map f := by
  obtain ⟨path, hpath, hreach, -⟩ := h.standing_spec h.size x
  rw [hpath, List.map_append, List.map_singleton]
  refine g.standing_eq_of_least (hc.reaches_map hreach) fun other hother hbefore => ?_
  obtain ⟨q, rfl, hq⟩ := hc.exists_reaches hx hother
  have hleast := h.standing_size_least hq
  rw [hpath, ← map_precedes_map hc.strictMono] at hleast
  exact hleast (by simpa using hbefore)

theorem leadsToCycle_iff {x : ℕ} (hx : x < h.size) :
    LeadsToCycle (h.dependsOn · ·) x ↔ LeadsToCycle (g.dependsOn · ·) (f x) := by
  constructor
  · exact fun hl => hl.lift f (fun i hi => DependencyGraph.dependsOn_ne hi rfl) hc.map
  · intro hl
    let members : Set ℕ := {a | a < h.size ∧ LeadsToCycle (g.dependsOn · ·) (f a)}
    have hbound : SelfBound (h.dependsOn · ·) members := by
      rintro a ⟨ha, hla⟩
      obtain ⟨j, haj, hlj⟩ := hla.exists_dependency
      obtain ⟨b, hb, rfl, hab⟩ := hc.target a j ha haj
      exact ⟨b, ⟨hb, hlj⟩, hab⟩
    have hfinite : members.Finite := (Set.finite_lt_nat h.size).subset fun a ha => ha.1
    exact hbound.leadsToCycle (fun i hi => DependencyGraph.dependsOn_ne hi rfl) hfinite ⟨hx, hl⟩

end IsComponent

section Places

variable {α : Type} (p : α → Bool) (items : List α)

/-- The places of the items of a kind. -/
def placesOf : List ℕ := (List.range items.length).filter fun i => (items[i]?).any p

/-- Where the i-th item of a kind stands; beyond the last one, somewhere after the list. -/
def placeOf (i : ℕ) : ℕ := (placesOf p items).getD i (items.length + i)

theorem mem_placesOf {i : ℕ} : i ∈ placesOf p items ↔ ∃ a, items[i]? = some a ∧ p a := by
  simp only [placesOf, List.mem_filter, List.mem_range, Option.any_eq_true]
  constructor
  · exact fun h => h.2
  · exact fun ⟨a, ha, hpa⟩ => ⟨(List.getElem?_eq_some_iff.mp ha).1, a, ha, hpa⟩

theorem lt_of_mem_placesOf {i : ℕ} (h : i ∈ placesOf p items) : i < items.length :=
  List.mem_range.mp (List.mem_of_mem_filter h)

theorem placesOf_ascending : (placesOf p items).Pairwise (· < ·) := List.pairwise_lt_range.filter _

theorem pick_filter (places : List ℕ) :
    pick items (places.filter fun i => (items[i]?).any p) = (pick items places).filter p := by
  rw [pick, pick, List.filter_filterMap, List.filterMap_filter]
  congr 1
  funext i
  cases items[i]? with
  | none => simp
  | some a => by_cases ha : p a <;> simp [ha, Option.filter_some]

theorem pick_placesOf : pick items (placesOf p items) = items.filter p := by
  rw [placesOf, pick_filter, pick_range]

theorem pick_pick {places : List ℕ} (h : ∀ i ∈ places, i < items.length) (order : List ℕ) :
    pick items (pick places order) = pick (pick items places) order := by
  rw [pick, pick, List.filterMap_filterMap, pick]
  congr 1
  funext k
  rw [getElem?_pick items h]

variable {p items}

theorem length_placesOf : (placesOf p items).length = (items.filter p).length := by
  rw [← pick_placesOf, pick, List.length_filterMap_eq_countP, eq_comm, List.countP_eq_length]
  intro k hk
  obtain ⟨a, ha, -⟩ := (mem_placesOf p items).mp hk
  simp [ha]

theorem getElem?_placesOf {i : ℕ} (h : i < (items.filter p).length) :
    (placesOf p items)[i]? = some (placeOf p items i) := by
  simp [placeOf, List.getD, length_placesOf, h]

theorem placeOf_mem {i : ℕ} (h : i < (items.filter p).length) :
    placeOf p items i ∈ placesOf p items :=
  List.mem_of_getElem? (getElem?_placesOf h)

theorem exists_placeOf {i : ℕ} (h : i ∈ placesOf p items) :
    ∃ a < (items.filter p).length, placeOf p items a = i := by
  obtain ⟨a, ha, rfl⟩ := List.mem_iff_getElem.mp h
  exact ⟨a, length_placesOf (p := p) ▸ ha, by simp [placeOf, List.getD, ha]⟩

theorem placeOf_strictMono : StrictMono (placeOf p items) := by
  have hasc := List.pairwise_iff_getElem.mp (placesOf_ascending p items)
  intro i j hij
  simp only [placeOf, List.getD]
  by_cases hj : j < (placesOf p items).length
  · have hi := hij.trans hj
    simpa [hi, hj] using hasc i j hi hj hij
  · by_cases hi : i < (placesOf p items).length
    · have := lt_of_mem_placesOf p items (List.getElem_mem hi)
      simp only [List.getElem?_eq_getElem hi, List.getElem?_eq_none (not_lt.mp hj)]
      simp only [Option.getD_some, Option.getD_none]
      omega
    · simpa [hi, hj] using hij

end Places

section Filter

variable {α : Type} {relation : α → α → Bool} {p : α → Bool} {items : List α}

theorem depends_filter {i j : ℕ} (hi : i < (items.filter p).length)
    (hj : j < (items.filter p).length) :
    Depends relation (items.filter p) i j ↔
      Depends relation items (placeOf p items i) (placeOf p items j) := by
  rw [← depends_pick (fun k hk => lt_of_mem_placesOf p items hk)
    ((placesOf_ascending p items).imp Nat.ne_of_lt) (getElem?_placesOf hi) (getElem?_placesOf hj),
    pick_placesOf]

variable (hp : ∀ a ∈ items, ∀ b ∈ items, relation a b → p a = p b)
include hp

theorem Depends.mem_placesOf_iff {i j : ℕ} (h : Depends relation items i j) :
    i ∈ placesOf p items ↔ j ∈ placesOf p items := by
  obtain ⟨-, a, ha, b, hb, hab⟩ := h
  have hpab := hp a (List.mem_of_getElem? ha) b (List.mem_of_getElem? hb) hab
  rw [Option.mem_def] at ha hb
  simp [mem_placesOf, ha, hb, hpab]

/-- The items of a kind are a part when none of them depends on the others, nor these on them. -/
theorem isComponent_filter :
    IsComponent (.ofItems relation (items.filter p)) (.ofItems relation items)
      (placeOf p items) where
  strictMono := placeOf_strictMono
  map i j hij := by
    rw [DependencyGraph.ofItems_dependsOn] at *
    exact (depends_filter hij.lt_left hij.lt_right).mp hij
  source i j hj hij := by
    rw [DependencyGraph.ofItems_size] at hj
    rw [DependencyGraph.ofItems_dependsOn] at hij
    obtain ⟨a, ha, rfl⟩ := exists_placeOf ((hij.mem_placesOf_iff hp).mpr (placeOf_mem hj))
    exact ⟨a, rfl, (DependencyGraph.ofItems_dependsOn _ _ _ _).mpr ((depends_filter ha hj).mpr hij)⟩
  target i j hi hij := by
    rw [DependencyGraph.ofItems_size] at hi
    rw [DependencyGraph.ofItems_dependsOn] at hij
    obtain ⟨b, hb, rfl⟩ := exists_placeOf ((hij.mem_placesOf_iff hp).mp (placeOf_mem hi))
    refine ⟨b, by rwa [DependencyGraph.ofItems_size], rfl, ?_⟩
    exact (DependencyGraph.ofItems_dependsOn _ _ _ _).mpr ((depends_filter hi hb).mpr hij)

/-- The order of the whole list, cut down to the items of a kind, is the order of these alone. -/
theorem order_filter :
    ((DependencyGraph.ofItems relation items).order.filter fun i => (items[i]?).any p) =
      pick (placesOf p items) (DependencyGraph.ofItems relation (items.filter p)).order := by
  let g := DependencyGraph.ofItems relation items
  let h := DependencyGraph.ofItems relation (items.filter p)
  have hsize : h.size = (items.filter p).length := DependencyGraph.ofItems_size _ _
  have hat : ∀ x ∈ h.order, (placesOf p items)[x]? = some (placeOf p items x) := fun x hx =>
    getElem?_placesOf (hsize ▸ (h.mem_order x).mp hx)
  have hc : IsComponent h g (placeOf p items) := isComponent_filter hp
  have hsorted :
      DependencyGraph.SortedBy (g.standing g.size) (pick (placesOf p items) h.order) := by
    rw [DependencyGraph.SortedBy, pick, List.pairwise_filterMap]
    refine h.order_sorted.imp_of_mem fun {x y} hx hy hxy a ha b hb => ?_
    obtain rfl : placeOf p items x = a := Option.some.inj ((hat x hx).symm.trans ha)
    obtain rfl : placeOf p items y = b := Option.some.inj ((hat y hy).symm.trans hb)
    rw [hc.standing_map ((h.mem_order x).mp hx), hc.standing_map ((h.mem_order y).mp hy),
      map_precedes_map hc.strictMono]
    exact hxy
  refine DependencyGraph.SortedBy.eq_of_mem_iff (g.order_sorted.filter _) hsorted fun x => ?_
  have hleft : x ∈ g.order.filter (fun i => (items[i]?).any p) ↔ x ∈ placesOf p items := by
    rw [List.mem_filter, g.mem_order, DependencyGraph.ofItems_size, placesOf, List.mem_filter,
      List.mem_range]
  rw [hleft, mem_pick]
  constructor
  · intro hx
    obtain ⟨a, ha, rfl⟩ := exists_placeOf hx
    exact ⟨a, (h.mem_order a).mpr (hsize ▸ ha), getElem?_placesOf ha⟩
  · rintro ⟨a, -, ha⟩
    exact List.mem_of_getElem? ha

/-- Arranging a list arranges the items of each such kind as if they were alone. -/
theorem filter_arranged :
    (arranged relation items).filter p = arranged relation (items.filter p) := by
  have hpick := pick_pick items (fun i hi => lt_of_mem_placesOf p items hi)
    (DependencyGraph.ofItems relation (items.filter p)).order
  rw [arranged, ← pick_filter, order_filter hp, hpick, pick_placesOf, arranged]

theorem leadsToCycle_filter {i : ℕ} (hi : i < (items.filter p).length) :
    LeadsToCycle (Depends relation (items.filter p)) i ↔
      LeadsToCycle (Depends relation items) (placeOf p items i) := by
  rw [← ofItems_dependsOn_eq, ← ofItems_dependsOn_eq]
  exact (isComponent_filter hp).leadsToCycle_iff (by rwa [DependencyGraph.ofItems_size])

end Filter

section Keys

variable {α κ : Type} [BEq κ] [LawfulBEq κ] {relation : α → α → Bool} {key : α → κ} {items : List α}
  (hk : ∀ a ∈ items, ∀ b ∈ items, relation a b → key a = key b)
include hk

/-- A list has no cycles when the items of each key have none. -/
theorem unresolvable_eq_nil_iff_forall_key :
    (DependencyGraph.ofItems relation items).unresolvable = [] ↔
      ∀ k, (DependencyGraph.ofItems relation (items.filter (key · == k))).unresolvable = [] := by
  have hp (k : κ) : ∀ a ∈ items, ∀ b ∈ items, relation a b → (key a == k) = (key b == k) :=
    fun a ha b hb hab => by rw [hk a ha b hb hab]
  simp only [List.eq_nil_iff_forall_not_mem, mem_unresolvable]
  constructor
  · intro h k i hi
    obtain ⟨j, hij, -⟩ := hi.exists_dependency
    exact h _ ((leadsToCycle_filter (hp k) hij.lt_left).mp hi)
  · intro h i hi
    obtain ⟨j, ⟨-, a, ha, -⟩, -⟩ := hi.exists_dependency
    have hmem : i ∈ placesOf (key · == key a) items := (mem_placesOf _ _).mpr ⟨a, ha, by simp⟩
    obtain ⟨x, hx, rfl⟩ := exists_placeOf hmem
    exact h (key a) x ((leadsToCycle_filter (hp (key a)) hx).mpr hi)

end Keys

section FirstItems

variable {κ : Type} [BEq κ] [LawfulBEq κ] {keyOf : ℕ → κ} {order : List ℕ}

/-- A move before an item of the same key leaves the keys in the order of their first items. -/
theorem distinct_promote {item dependency : ℕ} (hd : dependency ∈ order)
    (h : keyOf item = keyOf dependency) :
    distinct ((DependencyGraph.promote item order dependency).map keyOf) =
      distinct (order.map keyOf) := by
  by_cases hlt : order.idxOf item < order.idxOf dependency
  · obtain ⟨front, between, back, rfl, hi, hdep⟩ := DependencyGraph.split_order hd hlt
    let k := keyOf item
    have hmoved : distinct (front.map keyOf ++ [k] ++ k :: (between ++ back).map keyOf) =
        distinct (front.map keyOf ++ [k] ++ (between ++ back).map keyOf) :=
      distinct_append_cons_of_mem (by simp) _
    have hwas : distinct ((front ++ item :: between).map keyOf ++ k :: back.map keyOf) =
        distinct ((front ++ item :: between).map keyOf ++ back.map keyOf) :=
      distinct_append_cons_of_mem (List.mem_map_of_mem (by simp)) _
    rw [DependencyGraph.promote_split hi hdep]
    simp only [List.map_append, List.map_cons, ← h, List.append_assoc, List.cons_append,
      List.nil_append] at hmoved hwas ⊢
    exact hmoved.trans hwas.symm
  · rw [DependencyGraph.promote_eq_self hlt]

variable {g : DependencyGraph} (hg : ∀ i j, g.dependsOn i j → keyOf i = keyOf j)
include hg

theorem distinct_settle (ho : order.Perm g.items) (item : ℕ) :
    distinct ((g.settle order item).map keyOf) = distinct (order.map keyOf) := by
  have hfold : (g.settle order item).Perm g.items ∧
      distinct ((g.settle order item).map keyOf) = distinct (order.map keyOf) := by
    refine List.foldlRecOn (motive := fun o : List ℕ => o.Perm g.items ∧
      distinct (o.map keyOf) = distinct (order.map keyOf)) _ _ ⟨ho, rfl⟩ fun o h d hd => ?_
    obtain ⟨hd, hdep⟩ := (g.mem_dependencies item d).mp hd
    have hmem : d ∈ o := h.1.mem_iff.mpr ((g.mem_items d).mpr hd)
    exact ⟨(DependencyGraph.promote_perm item hmem).trans h.1,
      (distinct_promote hmem (hg item d hdep)).trans h.2⟩
  exact hfold.2

theorem distinct_order : distinct (g.order.map keyOf) = distinct (g.items.map keyOf) := by
  have hfold : g.order.Perm g.items ∧ distinct (g.order.map keyOf) = distinct (g.items.map keyOf) :=
    List.foldlRecOn (motive := fun o : List ℕ => o.Perm g.items ∧
      distinct (o.map keyOf) = distinct (g.items.map keyOf)) _ _ ⟨.refl _, rfl⟩ fun o h item _ =>
        ⟨g.settle_perm item h.1, (distinct_settle hg h.1 item).trans h.2⟩
  exact hfold.2

end FirstItems

theorem map_key_pick {α κ : Type} {key : α → κ} {items : List α} {places : List ℕ}
    (h : ∀ i ∈ places, i < items.length) :
    places.map (fun i => (items[i]?).map key) = ((pick items places).map key).map some := by
  induction places with
  | nil => rfl
  | cons i rest ih =>
    have hi := List.getElem?_eq_getElem (h i (by simp))
    have hrest := ih fun j hj => h j (by simp [hj])
    simp only [pick] at hrest ⊢
    rw [List.map_cons, hrest]
    simp [hi]

/-- Where no item depends on one of another key, arranging keeps the keys in the order of their
first items. -/
theorem distinct_arranged {α κ : Type} [BEq κ] [LawfulBEq κ] {relation : α → α → Bool} {key : α → κ}
    {items : List α} (hk : ∀ a ∈ items, ∀ b ∈ items, relation a b → key a = key b) :
    distinct ((arranged relation items).map key) = distinct (items.map key) := by
  let g := DependencyGraph.ofItems relation items
  have hsize : g.size = items.length := DependencyGraph.ofItems_size relation items
  have hg : ∀ i j, g.dependsOn i j → (items[i]?).map key = (items[j]?).map key := by
    intro i j hij
    obtain ⟨-, a, ha, b, hb, hab⟩ := (DependencyGraph.ofItems_dependsOn relation items i j).mp hij
    have hkey := hk a (List.mem_of_getElem? ha) b (List.mem_of_getElem? hb) hab
    rw [Option.mem_def] at ha hb
    rw [ha, hb, Option.map_some, Option.map_some, hkey]
  have horder : ∀ i ∈ g.order, i < items.length := fun i hi => hsize ▸ (g.mem_order i).mp hi
  have hitems : ∀ i ∈ g.items, i < items.length := fun i hi => hsize ▸ (g.mem_items i).mp hi
  have hsome := Option.some_injective κ
  have hdistinct := distinct_order hg
  rw [map_key_pick horder, map_key_pick hitems, distinct_map hsome, distinct_map hsome] at hdistinct
  have hpick : pick items g.items = items := by rw [DependencyGraph.items, hsize, pick_range]
  rw [hpick] at hdistinct
  exact List.map_injective_iff.mpr hsome hdistinct

end EventRules

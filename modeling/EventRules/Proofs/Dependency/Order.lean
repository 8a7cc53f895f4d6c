import EventRules.Proofs.Dependency.Resolution
import EventRules.Proofs.Dependency.Route

/-! The order of a graph in closed form. Settling an item puts its later dependencies just before
it, and what an item is settled by is a route to it; in the end the items stand in the order of the
least routes to them. -/
namespace EventRules
namespace DependencyGraph

variable (g : DependencyGraph)

/-- The route by which an item stands where it does once the items below a number are settled. -/
def standing : ℕ → ℕ → List ℕ
  | 0, x => [x]
  | t + 1, x =>
    if g.dependsOn t x ∧ Precedes (standing t t ++ [x]) (standing t x) then standing t t ++ [x]
    else standing t x

theorem standing_spec (t x : ℕ) : ∃ path, g.standing t x = path ++ [x] ∧
    Reaches (g.dependsOn · ·) path x ∧ ∀ i ∈ path, i < t := by
  induction t generalizing x with
  | zero => exact ⟨[], rfl, reaches_nil _ x, by simp⟩
  | succ t ih =>
    rw [standing]
    split
    next h =>
      obtain ⟨path, heq, hreach, hlt⟩ := ih t
      have hlast : ∀ j ∈ path.getLast?, j < t := fun j hj => hlt j (List.mem_of_mem_getLast? hj)
      refine ⟨path ++ [t], by rw [heq], reaches_append.mpr ⟨hreach, hlast, h.1⟩, ?_⟩
      intro i hi
      rcases List.mem_append.mp hi with hi | hi
      · exact (hlt i hi).trans (Nat.lt_succ_self t)
      · simp_all
    next h =>
      obtain ⟨path, heq, hreach, hlt⟩ := ih x
      exact ⟨path, heq, hreach, fun i hi => (hlt i hi).trans (Nat.lt_succ_self t)⟩

theorem not_precedes_standing_succ (t x : ℕ) :
    ¬ Precedes (g.standing t x) (g.standing (t + 1) x) := by
  rw [standing]
  split
  next h => exact h.2.asymm
  next h => exact precedes_irrefl _

/-- The standing of the settled item never runs through another item's. -/
theorem standing_not_prefix {t x : ℕ} (hx : x ≠ t) : ¬ g.standing t t <+: g.standing t x := by
  obtain ⟨p, hp, -, -⟩ := g.standing_spec t t
  obtain ⟨q, hq, -, hlt⟩ := g.standing_spec t x
  intro hpre
  have hmem : t ∈ q ++ [x] := hq ▸ hpre.subset (hp ▸ by simp)
  rcases List.mem_append.mp hmem with hmem | hmem
  · exact lt_irrefl t (hlt t hmem)
  · simp_all

/-- No route over settled items precedes the one by which an item stands. -/
theorem standing_least {t x : ℕ} {path : List ℕ} (h : Reaches (g.dependsOn · ·) path x)
    (hlt : ∀ i ∈ path, i < t) : ¬ Precedes (path ++ [x]) (g.standing t x) := by
  induction t generalizing path x with
  | zero =>
    have : path = [] := List.eq_nil_iff_forall_not_mem.mpr fun i hi => absurd (hlt i hi) (by omega)
    rw [this]
    exact precedes_irrefl _
  | succ t ih =>
    intro hbefore
    have hold : ¬ ∀ i ∈ path, i < t := fun hall =>
      ih h hall (hbefore.of_of_not (g.not_precedes_standing_succ t x))
    rcases List.eq_nil_or_concat path with rfl | ⟨p, i, rfl⟩
    · exact hold (by simp)
    · simp only [List.concat_eq_append] at *
      have hpi : ∀ j ∈ p, j < i := fun j hj => h.lt_of_mem hj
      obtain rfl : i = t := by
        by_contra hne
        have hi := hlt i (by simp)
        refine hold fun j hj => ?_
        rcases List.mem_append.mp hj with hj | hj
        · have := hpi j hj
          omega
        · simp only [List.mem_singleton] at hj
          omega
      -- the route ends in the item that is settled now
      obtain ⟨hp, -, hdep⟩ := reaches_append.mp h
      have hprefix : p ++ [i] <+: g.standing i i → p ++ [i] = g.standing i i := by
        obtain ⟨q, hq, -, hqi⟩ := g.standing_spec i i
        rw [hq, List.prefix_concat_iff]
        rintro (heq | hpre)
        · exact heq
        · exact absurd (hqi i (hpre.subset (by simp))) (lt_irrefl i)
      have hnew : ¬ Precedes (g.standing i i ++ [x]) (g.standing (i + 1) x) := by
        rw [standing]
        split
        next hc => exact precedes_irrefl _
        next hc => exact fun hb => hc ⟨hdep, hb⟩
      exact not_append_precedes_append (ih hp hpi) hprefix [x] (hbefore.of_of_not hnew)

/-- The items of an order stand in the order of their routes. -/
def SortedBy (route : ℕ → List ℕ) (order : List ℕ) : Prop :=
  order.Pairwise fun x y => Precedes (route x) (route y)

section SortedBy

variable {route route' : ℕ → List ℕ} {order front back : List ℕ} {a b : ℕ}

theorem SortedBy.congr (hs : SortedBy route order) (h : ∀ x ∈ order, route' x = route x) :
    SortedBy route' order :=
  hs.imp_of_mem fun {x y} hx hy hxy => by rwa [h x hx, h y hy]

theorem SortedBy.precedes (hs : SortedBy route order) (hb : b ∈ order)
    (h : order.idxOf a < order.idxOf b) : Precedes (route a) (route b) := by
  obtain ⟨front, between, back, rfl, -, -⟩ := split_order hb h
  rw [SortedBy, List.append_assoc, List.pairwise_append] at hs
  exact (List.pairwise_cons.mp hs.2.1).1 b (by simp)

theorem SortedBy.insert (hs : SortedBy route (front ++ back))
    (hfront : ∀ x ∈ front, Precedes (route x) (route a))
    (hback : ∀ y ∈ back, Precedes (route a) (route y)) : SortedBy route (front ++ a :: back) := by
  obtain ⟨hf, hb, hcross⟩ := List.pairwise_append.mp hs
  refine List.pairwise_append.mpr ⟨hf, List.pairwise_cons.mpr ⟨hback, hb⟩, ?_⟩
  intro x hx y hy
  rcases List.mem_cons.mp hy with rfl | hy
  · exact hfront x hx
  · exact hcross x hx y hy

/-- Which pairs stand in order is read off the routes. -/
theorem SortedBy.pairwise_iff (hs : SortedBy route order) {P : ℕ → ℕ → Prop} :
    order.Pairwise P ↔ ∀ a ∈ order, ∀ b ∈ order, Precedes (route a) (route b) → P a b := by
  constructor
  · intro hp a ha b hb hab
    let both := fun x y => (Precedes (route x) (route y) → P x y) ∧
      (Precedes (route y) (route x) → P y x)
    have hboth : order.Pairwise both :=
      hs.imp₂ (fun x y hxy hP => ⟨fun _ => hP, fun hyx => absurd hyx hxy.asymm⟩) hp
    have : Std.Symm both := ⟨fun _ _ h => And.symm h⟩
    have hne : a ≠ b := by
      rintro rfl
      exact precedes_irrefl _ hab
    exact (hboth.forall ha hb hne).1 hab
  · exact fun h => hs.imp_of_mem fun {x y} hx hy hxy => h x hx y hy hxy

end SortedBy

/-- The routes when some dependencies of an item have been looked at. -/
def raised (route : ℕ → List ℕ) (item : ℕ) (seen : List ℕ) (x : ℕ) : List ℕ :=
  if x ∈ seen ∧ Precedes (route item ++ [x]) (route x) then route item ++ [x] else route x

section Raised

variable {route : ℕ → List ℕ} {item dependency : ℕ} {seen order : List ℕ}

@[simp] theorem raised_nil (route : ℕ → List ℕ) (item : ℕ) : raised route item [] = route := by
  funext x
  simp [raised]

theorem raised_of_notMem {x : ℕ} (hx : x ∉ seen) : raised route item seen x = route x := by
  simp [raised, hx]

theorem raised_append_of_ne {x : ℕ} (hx : x ≠ dependency) :
    raised route item (seen ++ [dependency]) x = raised route item seen x := by
  simp [raised, hx]

/-- What stands before the item stands before the dependency that is put there next. -/
theorem raised_precedes_append (hroute : ∀ x, x ≠ item → ¬ route item <+: route x)
    (hseen : ∀ e ∈ seen, e < dependency) {x : ℕ}
    (h : Precedes (raised route item seen x) (route item)) (hx : x ≠ item) :
    Precedes (raised route item seen x) (route item ++ [dependency]) := by
  unfold raised at *
  split
  next hc =>
    rw [append_precedes_append]
    simpa using hseen x hc.1
  next hc =>
    rw [if_neg hc] at h
    exact h.append (hroute x hx) _

/-- A dependency that stands after the item gets the route through it, and its place. -/
theorem promote_sorted_of_lt (hroute : ∀ x, x ≠ item → ¬ route item <+: route x)
    (hitem : item ∉ seen) (hseen : ∀ e ∈ seen, e < dependency) (hdo : dependency ∈ order)
    (hnodup : order.Nodup) (hs : SortedBy (raised route item seen) order)
    (hlt : order.idxOf item < order.idxOf dependency) :
    SortedBy (raised route item (seen ++ [dependency])) (promote item order dependency) := by
  have hi : raised route item seen item = route item := raised_of_notMem hitem
  have hd : raised route item seen dependency = route dependency :=
    raised_of_notMem fun h => lt_irrefl _ (hseen _ h)
  have hafter := hs.precedes hdo hlt
  rw [hi, hd] at hafter
  have hnew : raised route item (seen ++ [dependency]) dependency = route item ++ [dependency] := by
    simp [raised, hafter.append_left]
  obtain ⟨front, between, back, rfl, hif, hdf⟩ := split_order hdo hlt
  rw [promote_split hif hdf]
  have hsame : ∀ x ∈ front ++ item :: (between ++ back),
      raised route item (seen ++ [dependency]) x = raised route item seen x := by
    intro x hx
    refine raised_append_of_ne ?_
    rintro rfl
    have hback := (List.nodup_append.mp hnodup).2.1
    simp_all
  have hrest : SortedBy (raised route item seen) (front ++ item :: (between ++ back)) :=
    hs.sublist (by simp)
  obtain ⟨-, htail, hcross⟩ := List.pairwise_append.mp hrest
  refine (hrest.congr hsame).insert ?_ ?_
  · intro x hx
    have hxi := hcross x hx item (by simp)
    rw [hi] at hxi
    rw [hsame x (by simp [hx]), hnew]
    exact raised_precedes_append hroute hseen hxi fun he => hif (he ▸ hx)
  · intro y hy
    rw [hnew, hsame y (by simp [hy])]
    rcases List.mem_cons.mp hy with rfl | hy
    · rw [hi]
      exact append_precedes _ _
    · have hiy := (List.pairwise_cons.mp htail).1 y hy
      rw [hi] at hiy
      exact (append_precedes _ _).trans hiy

/-- A dependency that stands before the item keeps its route. -/
theorem raised_append_of_precedes (hroute : ∀ x, x ≠ item → ¬ route item <+: route x)
    (hne : dependency ≠ item) (hseen : dependency ∉ seen)
    (h : Precedes (route dependency) (route item)) :
    raised route item (seen ++ [dependency]) = raised route item seen := by
  funext x
  by_cases hx : x = dependency
  · subst hx
    have := (h.append (hroute x hne) [x]).asymm
    rw [raised_of_notMem hseen]
    simp [raised, this]
  · exact raised_append_of_ne hx

theorem promote_sorted (hroute : ∀ x, x ≠ item → ¬ route item <+: route x)
    (hitem : item ∉ seen) (hne : dependency ≠ item) (hseen : ∀ e ∈ seen, e < dependency)
    (hio : item ∈ order) (hdo : dependency ∈ order) (hnodup : order.Nodup)
    (hs : SortedBy (raised route item seen) order) :
    SortedBy (raised route item (seen ++ [dependency])) (promote item order dependency) := by
  by_cases hlt : order.idxOf item < order.idxOf dependency
  · exact promote_sorted_of_lt hroute hitem hseen hdo hnodup hs hlt
  · have hd : dependency ∉ seen := fun h => lt_irrefl _ (hseen _ h)
    have hle : order.idxOf dependency < order.idxOf item := by
      have hidx := (List.idxOf_inj (y := item) hdo).not.mpr hne
      omega
    have hbefore := hs.precedes hio hle
    rw [raised_of_notMem hitem, raised_of_notMem hd] at hbefore
    rwa [promote_eq_self hlt, raised_append_of_precedes hroute hne hd hbefore]

theorem foldl_promote_sorted (hroute : ∀ x, x ≠ item → ¬ route item <+: route x)
    {todo : List ℕ} (hasc : (seen ++ todo).Pairwise (· < ·)) (hitem : item ∉ seen ++ todo)
    (hio : item ∈ order) (hmem : ∀ d ∈ todo, d ∈ order) (hnodup : order.Nodup)
    (hs : SortedBy (raised route item seen) order) :
    SortedBy (raised route item (seen ++ todo)) (todo.foldl (promote item) order) := by
  induction todo generalizing seen order with
  | nil => simpa using hs
  | cons d rest ih =>
    have hd : d ∈ order := hmem d (by simp)
    have hperm := promote_perm item hd
    have hseen : ∀ e ∈ seen, e < d := fun e he =>
      (List.pairwise_append.mp hasc).2.2 e he d (by simp)
    have hfirst := promote_sorted hroute (by simp_all) (by rintro rfl; simp at hitem) hseen hio hd
      hnodup hs
    have hrest := ih (by simpa using hasc) (by simpa using hitem) (hperm.mem_iff.mpr hio)
      (fun e he => hperm.mem_iff.mpr (hmem e (by simp [he]))) (hperm.nodup_iff.mpr hnodup) hfirst
    simpa using hrest

end Raised

/-- Settling an item raises exactly the dependencies to which its own standing leads earlier. -/
theorem raised_standing {i x : ℕ} (hx : x < g.size) :
    raised (g.standing i) i (g.dependencies i) x = g.standing (i + 1) x := by
  simp only [raised, standing, mem_dependencies, hx, true_and]

theorem settle_sorted {i : ℕ} {order : List ℕ} (ho : order.Perm g.items) (hi : i < g.size)
    (hs : SortedBy (g.standing i) order) : SortedBy (g.standing (i + 1)) (g.settle order i) := by
  have hmem : ∀ d ∈ g.dependencies i, d ∈ order := fun d hd =>
    ho.mem_iff.mpr ((g.mem_items d).mpr ((g.mem_dependencies i d).mp hd).1)
  have hself : i ∉ g.dependencies i := fun h =>
    dependsOn_ne ((g.mem_dependencies i i).mp h).2 rfl
  have hstart : SortedBy (raised (g.standing i) i []) order := by rwa [raised_nil]
  have hfold : SortedBy (raised (g.standing i) i ([] ++ g.dependencies i)) (g.settle order i) :=
    foldl_promote_sorted (fun x hx => g.standing_not_prefix hx) (g.dependencies_ascending i) hself
      (ho.mem_iff.mpr ((g.mem_items i).mpr hi)) hmem (ho.nodup_iff.mpr List.nodup_range) hstart
  refine hfold.imp_of_mem fun {x y} hx hy h => ?_
  have hlt {z : ℕ} (hz : z ∈ g.settle order i) : z < g.size :=
    (g.mem_items z).mp ((g.settle_perm i ho).mem_iff.mp hz)
  rwa [List.nil_append, g.raised_standing (hlt hx), g.raised_standing (hlt hy)] at h

/-- The items of the order stand in the order of the routes by which they got there. -/
theorem order_sorted : SortedBy (g.standing g.size) g.order := by
  have hstep : ∀ t ≤ g.size, SortedBy (g.standing t) ((List.range t).foldl g.settle g.items) ∧
      ((List.range t).foldl g.settle g.items).Perm g.items := by
    intro t ht
    induction t with
    | zero =>
      refine ⟨?_, .refl _⟩
      refine List.Pairwise.imp (fun {x y} hxy => ?_) (List.pairwise_lt_range (n := g.size))
      simp [standing, hxy]
    | succ t ih =>
      obtain ⟨hs, hp⟩ := ih (by omega)
      rw [List.range_succ, List.foldl_concat]
      exact ⟨g.settle_sorted hp ht hs, g.settle_perm t hp⟩
  exact (hstep g.size le_rfl).1

/-- In the end an item stands by the least of all routes to it. -/
theorem standing_size_least {x : ℕ} {path : List ℕ} (h : Reaches (g.dependsOn · ·) path x) :
    ¬ Precedes (path ++ [x]) (g.standing g.size x) := by
  refine g.standing_least h fun i hi => ?_
  rcases List.eq_nil_or_concat path with rfl | ⟨p, last, rfl⟩
  · simp at hi
  · rw [List.concat_eq_append] at *
    have hlast : last < g.size := dependsOn_lt (reaches_append.mp h).2.2
    rcases List.mem_append.mp hi with hi | hi
    · exact (h.lt_of_mem hi).trans hlast
    · simp_all

/-- One pass brings all dependencies first exactly when no item leaves one of its own behind. -/
theorem order_pairwise_iff (hg : ∀ i j, g.dependsOn i j → j < g.size) :
    g.order.Pairwise (fun a b => ¬ g.dependsOn a b) ↔
      ∀ a b, ¬ LeavesBehind (g.dependsOn · ·) a b := by
  rw [g.order_sorted.pairwise_iff]
  constructor
  · rintro h a b ⟨hab, path, hpath, -, hother⟩
    obtain ⟨q, hq, hreach, -⟩ := g.standing_spec g.size b
    have hbefore : Precedes (g.standing g.size a) (g.standing g.size b) :=
      .of_not_of (g.standing_size_least hpath) (hq ▸ hother q hreach)
    exact h a ((g.mem_order a).mpr (dependsOn_lt hab)) b ((g.mem_order b).mpr (hg a b hab))
      hbefore hab
  · intro h a _ b _ hbefore hab
    obtain ⟨path, hpath, hreach, -⟩ := g.standing_spec g.size a
    rw [hpath] at hbefore
    by_cases hback : ∃ i ∈ path.getLast?, a < i
    · refine h a b ⟨hab, path, hreach, hback, fun other hother => ?_⟩
      exact hbefore.of_of_not (g.standing_size_least hother)
    · -- the route to the item climbs on to its dependency
      have hclimb : ∀ j ∈ path.getLast?, j < a := by
        intro j hj
        have hne : a ≠ j := dependsOn_ne (hreach.2 j hj)
        have hle : ¬ a < j := fun hlt => hback ⟨j, hj, hlt⟩
        omega
      have hon : Reaches (g.dependsOn · ·) (path ++ [a]) b :=
        reaches_append.mpr ⟨hreach, hclimb, hab⟩
      exact g.standing_size_least hon ((append_precedes _ _).trans hbefore)

end DependencyGraph

/-- The items put in the order of their graph stand after all that they depend on exactly when
none leaves a dependency behind. -/
theorem respects_order_iff {α : Type} (relation : α → α → Bool) (items : List α) :
    Respects relation (pick items (DependencyGraph.ofItems relation items).order) ↔
      ∀ a b, ¬ LeavesBehind (Depends relation items) a b := by
  have hg := (DependencyGraph.ofItems relation items).order_pairwise_iff fun i j hij => by
    rw [DependencyGraph.ofItems_size]
    exact ((DependencyGraph.ofItems_dependsOn relation items i j).mp hij).lt_right
  rw [respects_pick items relation (DependencyGraph.order_nodup _)]
  simpa only [DependencyGraph.ofItems_dependsOn, ofItems_dependsOn_eq] using hg

/-- After one pass the items of a list stand after all that they depend on exactly when none of
them leaves one behind; the same holds of the actions of an accepted rule, and of the rules of an
accepted ruleset. -/
theorem resolution_respects_iff {α : Type} (relation : α → α → Bool) (items : List α) (r : Rule)
    (s : RuleSet) :
    ((DependencyGraph.ofItems relation items).order.Pairwise
        (fun i j => ¬ Depends relation items i j) ↔
      ∀ a b, ¬ LeavesBehind (Depends relation items) a b) ∧
    (∀ r1, r.resolveActions = .ok r1 → (Respects Action.dependsOn r1.actions ↔
      ∀ a b, ¬ LeavesBehind (Depends Action.dependsOn r.actions) a b)) ∧
    ∀ s1, s.resolveRules = .ok s1 → (Respects Rule.dependsOn s1.rules ↔
      ∀ a b, ¬ LeavesBehind (Depends Rule.dependsOn s.rules) a b) := by
  refine ⟨?_, ?_, ?_⟩
  · rw [← respects_pick items relation (DependencyGraph.order_nodup _)]
    exact respects_order_iff relation items
  · intro r1 h
    obtain ⟨-, rfl⟩ := Rule.resolveActions_eq_ok.mp h
    exact respects_order_iff Action.dependsOn r.actions
  · intro s1 h
    obtain ⟨-, rfl⟩ := RuleSet.resolveRules_eq_ok.mp h
    have hr := respects_order_iff Rule.dependsOn s.rules
    rwa [← RuleSet.ruleGraph, ← s.pick_rules] at hr

theorem resolution_respects_iff_swapped :
    let actions := [Action.copy "A" "${B}", .copy "B" "1"]
    ∃ r1 s1, Rule.resolveActions { actions } = .ok r1 ∧
      RuleSet.resolveRules { entries := [("u", { actions })] } = .ok s1 ∧
      (Respects Action.dependsOn r1.actions ↔
        ∀ a b, ¬ LeavesBehind (Depends Action.dependsOn actions) a b) ∧
      (Respects Rule.dependsOn s1.rules ↔
        ∀ a b, ¬ LeavesBehind (Depends Rule.dependsOn [{ actions }]) a b) := by
  intro actions
  have hr : Rule.resolveActions { actions } = .ok _ :=
    Rule.resolveActions_eq_ok.mpr ⟨by decide +kernel, rfl⟩
  have hs : RuleSet.resolveRules { entries := [("u", { actions })] } = .ok _ :=
    RuleSet.resolveRules_eq_ok.mpr ⟨by decide +kernel, rfl⟩
  have hexact := resolution_respects_iff Action.dependsOn actions { actions }
    { entries := [("u", { actions })] }
  exact ⟨_, _, hr, hs, hexact.2.1 _ hr, hexact.2.2 _ hs⟩

/-- Where item 0 depends on 2, item 2 on 1 and item 1 on 3, item 1 ends before item 3; and a rule
of four copies that depend on each other in this way is accepted. -/
theorem resolution_breaks_order :
    (let relation := fun a b : ℕ => decide ((a, b) ∈ [(0, 2), (1, 3), (2, 1)])
      let g := DependencyGraph.ofItems relation [0, 1, 2, 3]
      g.unresolvable = [] ∧ ¬ g.order.Pairwise fun i j => ¬ Depends relation [0, 1, 2, 3] i j) ∧
    ∃ r1, Rule.resolveActions { actions := [.copy "A" "${C}", .copy "B" "${D}", .copy "C" "${B}",
        .copy "D" "1"] } = .ok r1 ∧ ¬ Respects Action.dependsOn r1.actions := by
  constructor
  · refine ⟨by decide +kernel, ?_⟩
    simp only [← DependencyGraph.ofItems_dependsOn]
    decide +kernel
  · refine ⟨_, Rule.resolveActions_eq_ok.mpr ⟨by decide +kernel, rfl⟩, ?_⟩
    rw [Respects]
    decide +kernel

end EventRules

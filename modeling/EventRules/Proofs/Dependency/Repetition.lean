import EventRules.Proofs.Dependency.Standing

/-! Ordering a list that is in order already. A pass leaves a list as it is when nothing in it
stands before something it depends on, and where there are no cycles it leaves no other list as it
is; so a second pass changes nothing exactly when the first one has brought all dependencies
first. -/
namespace EventRules
open Relation

theorem Reaches.transGen {R : ℕ → ℕ → Prop} {path : List ℕ} {a x : ℕ}
    (h : Reaches R (a :: path) x) : TransGen R a x := by
  induction path generalizing a with
  | nil => exact .single (h.2 a (by simp))
  | cons b path ih =>
    obtain ⟨⟨-, hab⟩, hclimb⟩ := List.isChain_cons_cons.mp h.1
    have hrest : Reaches R (b :: path) x := ⟨hclimb, fun i hi => h.2 i (by simpa using hi)⟩
    exact .head hab (ih hrest)

namespace DependencyGraph

variable (g : DependencyGraph)

theorem idxOf_items {a : ℕ} (ha : a < g.size) : g.items.idxOf a = a := by
  have h := (List.nodup_range (n := g.size)).idxOf_getElem a (by simpa using ha)
  rwa [List.getElem_range] at h

/-- A pass over items that depend on lower ones only moves nothing. -/
theorem order_eq_items (h : ∀ a b, g.dependsOn a b → b < a) : g.order = g.items := by
  have hsettle : ∀ a ∈ g.items, g.settle g.items a = g.items := by
    intro a ha
    rw [settle]
    refine List.foldlRecOn (motive := (· = g.items)) _ _ rfl fun order ho d hd => ?_
    obtain ⟨hsize, hdep⟩ := (g.mem_dependencies a d).mp hd
    have hda := h a d hdep
    rw [ho, promote_eq_self]
    rw [g.idxOf_items hsize, g.idxOf_items ((g.mem_items a).mp ha)]
    omega
  exact List.foldlRecOn (motive := (· = g.items)) _ _ rfl fun order ho a ha => by
    rw [ho, hsettle a ha]

/-- The items below a number depend on lower ones only. -/
def SettledBelow (n : ℕ) : Prop := ∀ a < n, ∀ b, g.dependsOn a b → b < a

variable {g} {n : ℕ}

/-- A route that starts at a settled item goes no further than one step down. -/
theorem SettledBelow.reaches (hs : g.SettledBelow n) {path : List ℕ} {a x : ℕ}
    (h : Reaches (g.dependsOn · ·) (a :: path) x) (ha : a < n) : x < a := by
  cases path with
  | nil => exact hs a ha x (h.2 a (by simp))
  | cons b path =>
    obtain ⟨⟨hab, hdep⟩, -⟩ := List.isChain_cons_cons.mp h.1
    have := hs a ha b hdep
    omega

theorem SettledBelow.standing_of_lt (hs : g.SettledBelow n) {x : ℕ} (hx : x < n) :
    g.standing g.size x = [x] := by
  refine g.standing_eq_of_least (reaches_nil _ x) fun other hother hbefore => ?_
  cases other with
  | nil => exact precedes_irrefl _ hbefore
  | cons a path =>
    have hax : a ≤ x := by
      rcases (cons_precedes_cons a x _ _).mp hbefore with h | ⟨h, -⟩ <;> omega
    have := hs.reaches hother (by omega)
    omega

/-- An item that is not among the settled ones stands by itself or by a route from such an item. -/
theorem SettledBelow.standing_of_le (hs : g.SettledBelow n) {x : ℕ} (hx : n ≤ x) :
    g.standing g.size x = [x] ∨ ∃ a path, g.standing g.size x = a :: (path ++ [x]) ∧ n ≤ a ∧
      TransGen (g.dependsOn · ·) a x := by
  obtain ⟨path, hpath, hreach, -⟩ := g.standing_spec g.size x
  cases path with
  | nil => exact .inl hpath
  | cons a path =>
    refine .inr ⟨a, path, hpath, ?_, hreach.transGen⟩
    by_contra ha
    have := hs.reaches hreach (by omega)
    omega

/-- The settled items stay where they are, and all others stand behind them. -/
theorem SettledBelow.order_eq (hs : g.SettledBelow n) (hn : n ≤ g.size) :
    g.order = List.range n ++ g.order.filter fun x => decide (n ≤ x) := by
  refine g.order_sorted.eq_of_mem_iff (List.pairwise_append.mpr ⟨?_, ?_, ?_⟩) fun x => ?_
  · refine List.pairwise_lt_range.imp_of_mem fun {x y} hx hy hxy => ?_
    rw [hs.standing_of_lt (by simpa using hx), hs.standing_of_lt (by simpa using hy)]
    simp [hxy]
  · exact g.order_sorted.filter _
  · intro x hx y hy
    have hxn : x < n := by simpa using hx
    have hny : n ≤ y := by simpa using (List.mem_filter.mp hy).2
    rw [hs.standing_of_lt hxn]
    rcases hs.standing_of_le hny with hy | ⟨a, path, hy, hna, -⟩
    · rw [hy, cons_precedes_cons]
      exact .inl (by omega)
    · rw [hy, cons_precedes_cons]
      exact .inl (by omega)
  · simp only [g.mem_order, List.mem_append, List.mem_range, List.mem_filter, decide_eq_true_eq]
    omega

/-- Where the settled items end before one that depends on a later one, the pass puts an item to
which chains of dependencies lead from there. -/
theorem SettledBelow.exists_displacing (hs : g.SettledBelow n) {b : ℕ} (hb : g.dependsOn n b)
    (hnb : n < b) (hsize : b < g.size) :
    ∃ z, g.order[n]? = some z ∧ TransGen (g.dependsOn · ·) n z := by
  let rest := g.order.filter fun x => decide (n ≤ x)
  have horder : g.order = List.range n ++ rest := hs.order_eq (by omega)
  have hsorted : SortedBy (g.standing g.size) rest := g.order_sorted.filter _
  have hrest : ∀ x, x ∈ rest ↔ x < g.size ∧ n ≤ x := fun x => by simp [rest, g.mem_order]
  obtain ⟨z, tail, hz⟩ :=
    List.exists_cons_of_ne_nil (List.ne_nil_of_mem ((hrest b).mpr ⟨hsize, hnb.le⟩))
  refine ⟨z, by rw [horder, hz]; simp, ?_⟩
  have hbr : b ∈ z :: tail := hz ▸ (hrest b).mpr ⟨hsize, hnb.le⟩
  rcases List.mem_cons.mp hbr with rfl | hbr
  · exact .single hb
  · have hroute : Reaches (g.dependsOn · ·) ([] ++ [n]) b :=
      reaches_append.mpr ⟨reaches_nil _ n, by simp, hb⟩
    have hzb : Precedes (g.standing g.size z) (g.standing g.size b) :=
      (List.pairwise_cons.mp (hz ▸ hsorted)).1 b hbr
    have hzn : Precedes (g.standing g.size z) [n, b] := hzb.of_of_not (g.standing_size_least hroute)
    have hnz : n ≤ z := ((hrest z).mp (by simp [hz])).2
    rcases hs.standing_of_le hnz with heq | ⟨a, path, heq, hna, hchain⟩
    · rw [heq, cons_precedes_cons] at hzn
      simp [not_lt.mpr hnz] at hzn
    · rw [heq, cons_precedes_cons] at hzn
      have han : a = n := by omega
      rwa [han] at hchain

/-- The graph of images is the graph of the items under the relation between their images. -/
theorem ofItems_map {α β : Type} (relation : β → β → Bool) (f : α → β) (items : List α) :
    ofItems relation (items.map f) = ofItems (Function.onFun relation f) items := by
  simp [ofItems, List.zipIdx_map, List.filter_map, Function.comp_def, Function.onFun]

end DependencyGraph

section Items

variable {α : Type} {relation : α → α → Bool} {items : List α}

theorem respects_iff : Respects relation items ↔ ∀ a b, Depends relation items a b → b < a := by
  rw [Respects, List.pairwise_iff_getElem]
  constructor
  · rintro h a b ⟨hne, x, hx, y, hy, hxy⟩
    obtain ⟨ha, rfl⟩ := List.getElem?_eq_some_iff.mp hx
    obtain ⟨hb, rfl⟩ := List.getElem?_eq_some_iff.mp hy
    by_contra hlt
    exact h a b ha hb (by omega) hxy
  · intro h a b ha hb hlt hxy
    have hdep : Depends relation items a b :=
      ⟨by omega, items[a], List.getElem?_eq_getElem ha, items[b], List.getElem?_eq_getElem hb, hxy⟩
    have := h a b hdep
    omega

/-- A chain of dependencies between places with the same item closes a cycle. -/
theorem exists_onCycle_of_getElem?_eq {i z : ℕ} (h : TransGen (Depends relation items) i z)
    (hz : items[z]? = items[i]?) : ∃ k, OnCycle (Depends relation items) k := by
  obtain ⟨k, hik, hne, a, ha, b, hb, hab⟩ := TransGen.tail'_iff.mp h
  rw [Option.mem_def] at ha hb
  by_cases hki : k = i
  · subst hki
    obtain rfl : a = b := Option.some.inj (by rw [← ha, ← hb, hz])
    exact ⟨k, z, hne, .single ⟨hne, a, ha, a, hb, hab⟩, .single ⟨Ne.symm hne, a, hb, a, ha, hab⟩⟩
  · have hback : Depends relation items k i := ⟨Ne.symm hki, a, ha, b, hz ▸ hb, hab⟩
    exact ⟨k, onCycle_of_transGen (not_depends_self relation items) (.head' hback hik)⟩

theorem pick_range (items : List α) : pick items (List.range items.length) = items := by
  refine List.ext_getElem? fun k => ?_
  rw [getElem?_pick items fun i hi => List.mem_range.mp hi]
  by_cases hk : k < items.length
  · rw [List.getElem?_range hk, Option.bind_some]
  · simp [not_lt.mp hk]

/-- The items of a list put in the order of their graph. -/
def arranged (relation : α → α → Bool) (items : List α) : List α :=
  pick items (DependencyGraph.ofItems relation items).order

theorem order_ofItems_perm (relation : α → α → Bool) (items : List α) :
    (DependencyGraph.ofItems relation items).order.Perm (List.range items.length) := by
  have h := (DependencyGraph.ofItems relation items).order_perm
  rwa [DependencyGraph.items, DependencyGraph.ofItems_size] at h

theorem arranged_perm (relation : α → α → Bool) (items : List α) :
    (arranged relation items).Perm items := by
  have hperm := (order_ofItems_perm relation items).filterMap fun i => items[i]?
  exact hperm.trans (by rw [← pick, pick_range])

/-- Arranging the items brings no cycle about. -/
theorem unresolvable_arranged (h : (DependencyGraph.ofItems relation items).unresolvable = []) :
    (DependencyGraph.ofItems relation (arranged relation items)).unresolvable = [] := by
  rw [List.eq_nil_iff_forall_not_mem]
  intro i hi
  have hperm := order_ofItems_perm relation items
  have hcycle := (mem_unresolvable relation (arranged relation items) i).mp hi
  obtain ⟨j, ⟨-, x, hx, -⟩, -⟩ := hcycle.exists_dependency
  rw [arranged, getElem?_pick items fun k hk => by simpa using hperm.mem_iff.mp hk] at hx
  obtain ⟨a, ha, -⟩ := Option.bind_eq_some_iff.mp hx
  have hmem := (mem_unresolvable relation items a).mpr ((leadsToCycle_pick hperm ha).mp hcycle)
  rw [h] at hmem
  exact List.not_mem_nil hmem

/-- Without cycles a pass leaves a list as it is exactly when all dependencies come first in it. -/
theorem arranged_eq_self_iff (hc : ∀ i, ¬ OnCycle (Depends relation items) i) :
    arranged relation items = items ↔ Respects relation items := by
  let g := DependencyGraph.ofItems relation items
  have hsize : g.size = items.length := DependencyGraph.ofItems_size relation items
  rw [respects_iff]
  constructor
  · intro hself a
    induction a using Nat.strong_induction_on with
    | _ n ih =>
    intro b hb
    by_contra hle
    have hs : g.SettledBelow n := fun a ha b hab =>
      ih a ha b ((DependencyGraph.ofItems_dependsOn relation items a b).mp hab)
    have hnb : n < b := by
      have := hb.1
      omega
    obtain ⟨z, hz, hchain⟩ := hs.exists_displacing
      ((DependencyGraph.ofItems_dependsOn relation items n b).mpr hb) hnb (hsize ▸ hb.lt_right)
    have hlt : ∀ i ∈ g.order, i < items.length := fun i hi => hsize ▸ (g.mem_order i).mp hi
    have hsame : items[z]? = items[n]? := by
      conv_rhs => rw [← hself, arranged, getElem?_pick items hlt, hz]
      rfl
    rw [ofItems_dependsOn_eq] at hchain
    obtain ⟨k, hk⟩ := exists_onCycle_of_getElem?_eq hchain hsame
    exact hc k hk
  · intro h
    have horder : g.order = g.items := g.order_eq_items fun a b hab =>
      h a b ((DependencyGraph.ofItems_dependsOn relation items a b).mp hab)
    calc arranged relation items = pick items g.items := by rw [← horder]; rfl
      _ = items := by rw [DependencyGraph.items, hsize, pick_range]

/-- A second pass changes nothing exactly when the first one has left no dependency behind. -/
theorem arranged_arranged_iff (h : (DependencyGraph.ofItems relation items).unresolvable = []) :
    arranged relation (arranged relation items) = arranged relation items ↔
      ∀ a b, ¬ LeavesBehind (Depends relation items) a b := by
  rw [arranged_eq_self_iff ((unresolvable_eq_nil_iff _ _).mp (unresolvable_arranged h))]
  exact respects_order_iff relation items

end Items

theorem Rule.resolveActions_eq_ok_self {r : Rule} : r.resolveActions = .ok r ↔
    r.actionGraph.unresolvable = [] ∧ arranged Action.dependsOn r.actions = r.actions := by
  rw [resolveActions_eq_ok]
  refine and_congr_right fun _ => ⟨fun h => (congrArg Rule.actions h).symm, fun h => ?_⟩
  change r = { r with actions := arranged Action.dependsOn r.actions }
  rw [h]

namespace RuleSet

theorem ruleGraph_eq (s : RuleSet) :
    s.ruleGraph = .ofItems (Function.onFun Rule.dependsOn Prod.snd) s.entries :=
  DependencyGraph.ofItems_map Rule.dependsOn Prod.snd s.entries

theorem resolveRules_eq_ok_self {s : RuleSet} : s.resolveRules = .ok s ↔
    s.ruleGraph.unresolvable = [] ∧
      arranged (Function.onFun Rule.dependsOn Prod.snd) s.entries = s.entries := by
  rw [resolveRules_eq_ok]
  refine and_congr_right fun _ => ⟨fun h => ?_, fun h => ?_⟩
  · rw [arranged, ← ruleGraph_eq]
    exact (congrArg RuleSet.entries h).symm
  · rw [ruleGraph_eq]
    change s = { s with entries := arranged (Function.onFun Rule.dependsOn Prod.snd) s.entries }
    rw [h]

end RuleSet

/-- Arranging a list without cycles a second time changes nothing exactly when the first time no
item has left a dependency behind; the same holds of the actions of an accepted rule, and of the
rules of an accepted ruleset. -/
theorem arranging_again_iff {α : Type} (relation : α → α → Bool) (items : List α) (r : Rule)
    (s : RuleSet) :
    ((DependencyGraph.ofItems relation items).unresolvable = [] →
      (arranged relation (arranged relation items) = arranged relation items ↔
        ∀ a b, ¬ LeavesBehind (Depends relation items) a b)) ∧
    (∀ r1, r.resolveActions = .ok r1 → (r1.resolveActions = .ok r1 ↔
      ∀ a b, ¬ LeavesBehind (Depends Action.dependsOn r.actions) a b)) ∧
    ∀ s1, s.resolveRules = .ok s1 → (s1.resolveRules = .ok s1 ↔
      ∀ a b, ¬ LeavesBehind (Depends Rule.dependsOn s.rules) a b) := by
  refine ⟨arranged_arranged_iff, ?_, ?_⟩
  · intro r1 h
    obtain ⟨hu, rfl⟩ := Rule.resolveActions_eq_ok.mp h
    rw [Rule.resolveActions_eq_ok_self, ← arranged_arranged_iff hu]
    exact and_iff_right (unresolvable_arranged hu)
  · intro s1 h
    obtain ⟨hu, rfl⟩ := RuleSet.resolveRules_eq_ok.mp h
    have hu' := hu
    rw [RuleSet.ruleGraph_eq] at hu'
    have hdepends : Depends Rule.dependsOn s.rules =
        Depends (Function.onFun Rule.dependsOn Prod.snd) s.entries := by
      rw [← ofItems_dependsOn_eq, ← ofItems_dependsOn_eq, ← s.ruleGraph_eq, RuleSet.ruleGraph]
    rw [RuleSet.resolveRules_eq_ok_self, hdepends, ← arranged_arranged_iff hu', s.ruleGraph_eq]
    refine and_iff_right ?_
    rw [RuleSet.ruleGraph_eq]
    exact unresolvable_arranged hu'

theorem arranging_again_iff_swapped :
    let actions := [Action.copy "A" "${B}", .copy "B" "1"]
    let s : RuleSet := { entries := [("u", { actions := [.copy "A" "${B}"] }),
      ("v", { actions := [.copy "B" "1"] })] }
    ((DependencyGraph.ofItems Action.dependsOn actions).unresolvable = [] ∧
      (arranged Action.dependsOn (arranged Action.dependsOn actions) =
          arranged Action.dependsOn actions ↔
        ∀ a b, ¬ LeavesBehind (Depends Action.dependsOn actions) a b)) ∧
    (∃ r1, Rule.resolveActions { actions } = .ok r1 ∧ (r1.resolveActions = .ok r1 ↔
      ∀ a b, ¬ LeavesBehind (Depends Action.dependsOn actions) a b)) ∧
    ∃ s1, s.resolveRules = .ok s1 ∧ (s1.resolveRules = .ok s1 ↔
      ∀ a b, ¬ LeavesBehind (Depends Rule.dependsOn s.rules) a b) := by
  intro actions s
  have hu : (DependencyGraph.ofItems Action.dependsOn actions).unresolvable = [] := by
    decide +kernel
  have hr : Rule.resolveActions { actions } = .ok _ := Rule.resolveActions_eq_ok.mpr ⟨hu, rfl⟩
  have hs : s.resolveRules = .ok _ :=
    RuleSet.resolveRules_eq_ok.mpr ⟨by decide +kernel, rfl⟩
  have hexact := arranging_again_iff Action.dependsOn actions { actions } s
  exact ⟨⟨hu, hexact.1 hu⟩, ⟨_, hr, hexact.2.1 _ hr⟩, _, hs, hexact.2.2 _ hs⟩

/-- Where item 0 depends on 2, item 2 on 1 and item 1 on 3, the second time moves item 3 before item
1; and so it goes with four copies that depend on each other in this way, as the actions of a rule
and as rules of their own. -/
theorem arranging_again_moves :
    (let relation := fun a b : ℕ => decide ((a, b) ∈ [(0, 2), (1, 3), (2, 1)])
      let g := DependencyGraph.ofItems relation [0, 1, 2, 3]
      g.unresolvable = [] ∧ arranged relation [0, 1, 2, 3] = [1, 2, 0, 3] ∧
        arranged relation [1, 2, 0, 3] = [3, 1, 2, 0]) ∧
    let copies := [Action.copy "A" "${C}", .copy "B" "${D}", .copy "C" "${B}", .copy "D" "1"]
    let s : RuleSet := { entries := copies.map fun a => (a.target, { actions := [a] }) }
    (∃ r1, Rule.resolveActions { actions := copies } = .ok r1 ∧ r1.resolveActions ≠ .ok r1) ∧
    ∃ s1, s.resolveRules = .ok s1 ∧ s1.resolveRules ≠ .ok s1 := by
  refine ⟨by decide +kernel, ⟨_, Rule.resolveActions_eq_ok.mpr ⟨by decide +kernel, rfl⟩, ?_⟩,
    _, RuleSet.resolveRules_eq_ok.mpr ⟨by decide +kernel, rfl⟩, ?_⟩
  · intro h
    have hsame := congrArg (List.map Action.target) (Rule.resolveActions_eq_ok_self.mp h).2
    revert hsame
    decide +kernel
  · intro h
    have hsame := congrArg (List.map Prod.fst) (RuleSet.resolveRules_eq_ok_self.mp h).2
    revert hsame
    decide +kernel

end EventRules

import EventRules.Proofs.Dependency.Order
import Mathlib.Data.List.Sort

/-! The routes by which items stand in the end, without reference to the pass that found them: each
is the least of all routes to its item, and the order is the only list of the items that they sort.
Of some items, that one stands first in the order to which the least route leads. -/
namespace EventRules

/-- Of the items that qualify, this is the one to which the least route leads. -/
def Foremost (R : ℕ → ℕ → Prop) (qualifies : ℕ → Prop) (i : ℕ) : Prop :=
  qualifies i ∧ ∃ path, Reaches R path i ∧
    ∀ j, qualifies j → j ≠ i → ∀ other, Reaches R other j → Precedes (path ++ [i]) (other ++ [j])

namespace DependencyGraph

theorem SortedBy.eq_of_mem_iff {route : ℕ → List ℕ} {order other : List ℕ}
    (hs : SortedBy route order) (ht : SortedBy route other) (h : ∀ x, x ∈ order ↔ x ∈ other) :
    order = other := by
  let before := fun x y => Precedes (route x) (route y)
  have : Std.Irrefl before := ⟨fun x => precedes_irrefl (route x)⟩
  have : Std.Antisymm before := ⟨fun x y hxy hyx => absurd hyx hxy.asymm⟩
  exact List.Pairwise.eq_of_mem_iff (r := before) hs ht h

/-- What is found first in a sorted list is found at the least of the routes that have it. -/
theorem SortedBy.findSome?_eq_some_iff {α : Type} {route : ℕ → List ℕ} {order : List ℕ}
    (hs : SortedBy route order) {f : ℕ → Option α} {a : α} : order.findSome? f = some a ↔
      ∃ i ∈ order, f i = some a ∧
        ∀ j ∈ order, (f j).isSome → j ≠ i → Precedes (route i) (route j) := by
  rw [List.findSome?_eq_some_iff]
  constructor
  · rintro ⟨before, i, after, rfl, hi, hnone⟩
    refine ⟨i, by simp, hi, fun j hj hsome hne => ?_⟩
    rcases List.mem_append.mp hj with hj | hj
    · simp [hnone j hj] at hsome
    · have hafter := (List.pairwise_append.mp hs).2.1
      exact (List.pairwise_cons.mp hafter).1 j ((List.mem_cons.mp hj).resolve_left hne)
  · rintro ⟨i, hi, hfi, hleast⟩
    obtain ⟨before, after, rfl⟩ := List.append_of_mem hi
    refine ⟨before, i, after, rfl, hfi, fun j hj => ?_⟩
    have hji : Precedes (route j) (route i) :=
      (List.pairwise_append.mp hs).2.2 j hj i List.mem_cons_self
    have hne : j ≠ i := by
      rintro rfl
      exact precedes_irrefl _ hji
    by_contra hsome
    have hij := hleast j (by simp [hj]) (Option.ne_none_iff_isSome.mp hsome) hne
    exact hij.asymm hji

variable (g : DependencyGraph)

/-- A route to an item that no other route to it precedes is the one by which it stands. -/
theorem standing_eq_of_least {x : ℕ} {path : List ℕ} (h : Reaches (g.dependsOn · ·) path x)
    (hleast : ∀ other, Reaches (g.dependsOn · ·) other x →
      ¬ Precedes (other ++ [x]) (path ++ [x])) :
    g.standing g.size x = path ++ [x] := by
  obtain ⟨q, hq, hreach, -⟩ := g.standing_spec g.size x
  have hstanding : ¬ Precedes (path ++ [x]) (q ++ [x]) := hq ▸ g.standing_size_least h
  by_contra hne
  rw [hq] at hne
  rcases precedes_or_precedes hne with hp | hp
  · exact hleast q hreach hp
  · exact hstanding hp

/-- The least routes are those by which the items stand. -/
theorem foremost_iff {qualifies : ℕ → Prop} {i : ℕ} :
    Foremost (g.dependsOn · ·) qualifies i ↔ qualifies i ∧
      ∀ j, qualifies j → j ≠ i → Precedes (g.standing g.size i) (g.standing g.size j) := by
  unfold Foremost
  refine and_congr_right fun _ => ⟨?_, fun hleast => ?_⟩
  · rintro ⟨path, hpath, hleast⟩ j hj hne
    obtain ⟨other, hother, hreach, -⟩ := g.standing_spec g.size j
    have hbefore : Precedes (path ++ [i]) (g.standing g.size j) :=
      hother ▸ hleast j hj hne other hreach
    exact Precedes.of_not_of (g.standing_size_least hpath) hbefore
  · obtain ⟨path, hpath, hreach, -⟩ := g.standing_spec g.size i
    refine ⟨path, hreach, fun j hj hne other hother => ?_⟩
    rw [← hpath]
    exact (hleast j hj hne).of_of_not (g.standing_size_least hother)

/-- What is found first in the order is found at the foremost of the items that have it. -/
theorem findSome?_order {α : Type} {f : ℕ → Option α} (hf : ∀ i, (f i).isSome → i < g.size)
    {a : α} : g.order.findSome? f = some a ↔
      ∃ i, Foremost (g.dependsOn · ·) (fun j => (f j).isSome) i ∧ f i = some a := by
  simp only [g.order_sorted.findSome?_eq_some_iff, g.mem_order, g.foremost_iff]
  refine exists_congr fun i => ?_
  constructor
  · rintro ⟨-, hi, hleast⟩
    exact ⟨⟨by simp [hi], fun j hj => hleast j (hf j hj) hj⟩, hi⟩
  · rintro ⟨⟨hsome, hleast⟩, hi⟩
    exact ⟨hf i hsome, hi, fun j _ hj => hleast j hj⟩

end DependencyGraph

end EventRules

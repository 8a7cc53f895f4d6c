import EventRules.Proofs.Dependency.Resolution
import EventRules.Proofs.Pipeline.Buckets
import Mathlib.Data.List.Forall2

/-! Lists that correspond item by item. What looks only at what corresponding items share gives the
same for both lists, and what only picks or collects items gives lists that correspond again. -/
namespace EventRules

open Relator

variable {α β γ κ μ : Type} {R : α → β → Prop} {as : List α} {bs : List β}

theorem map_eq_of_forall₂ {f : α → γ} {g : β → γ} (hfg : ∀ a b, R a b → f a = g b)
    (h : List.Forall₂ R as bs) : as.map f = bs.map g := by
  induction h with
  | nil => rfl
  | cons hab _ ih => rw [List.map_cons, List.map_cons, hfg _ _ hab, ih]

theorem filterMap_eq_of_forall₂ {f : α → Option γ} {g : β → Option γ}
    (hfg : ∀ a b, R a b → f a = g b) (h : List.Forall₂ R as bs) :
    as.filterMap f = bs.filterMap g := by
  have hmap := congrArg (List.filterMap id) (map_eq_of_forall₂ hfg h)
  rwa [List.filterMap_map, List.filterMap_map, Function.id_comp, Function.id_comp] at hmap

theorem findSome?_eq_of_forall₂ {f : α → Option γ} {g : β → Option γ}
    (hfg : ∀ a b, R a b → f a = g b) (h : List.Forall₂ R as bs) :
    as.findSome? f = bs.findSome? g := by
  rw [← List.head?_filterMap, ← List.head?_filterMap, filterMap_eq_of_forall₂ hfg h]

theorem isEmpty_eq_of_forall₂ (h : List.Forall₂ R as bs) : as.isEmpty = bs.isEmpty := by
  cases h <;> rfl

theorem any_eq_of_forall₂ {p : α → Bool} {q : β → Bool} (hpq : ∀ a b, R a b → p a = q b)
    (h : List.Forall₂ R as bs) : as.any p = bs.any q := by
  have hmap := congrArg (List.any · id) (map_eq_of_forall₂ hpq h)
  simp only [List.any_map] at hmap
  exact hmap

theorem forall_mem_iff_of_forall₂ {p : α → Prop} {q : β → Prop} (hpq : ∀ a b, R a b → (p a ↔ q b))
    (h : List.Forall₂ R as bs) : (∀ a ∈ as, p a) ↔ ∀ b ∈ bs, q b := by
  induction h with
  | nil => simp
  | cons hab _ ih => rw [List.forall_mem_cons, List.forall_mem_cons, hpq _ _ hab, ih]

theorem filter_forall₂ {p : α → Bool} {q : β → Bool} (hpq : ∀ a b, R a b → p a = q b)
    (h : List.Forall₂ R as bs) : List.Forall₂ R (as.filter p) (bs.filter q) :=
  List.rel_filter (fun a b hab => iff_of_eq (congrArg (· = true) (hpq a b hab))) h

section Optional

variable {a? : Option α} {b? : Option β} (h : Option.Rel R a? b?)
include h

theorem map_eq_of_rel {f : α → γ} {g : β → γ} (hfg : ∀ a b, R a b → f a = g b) :
    a?.map f = b?.map g := by
  cases h with
  | none => rfl
  | some hab => exact congrArg some (hfg _ _ hab)

theorem isSome_eq_of_rel : a?.isSome = b?.isSome := by
  cases h <;> rfl

theorem isNone_eq_of_rel : a?.isNone = b?.isNone := by
  cases h <;> rfl

theorem rel_and_left {p : α → Prop} (hp : ∀ a ∈ a?, p a) :
    Option.Rel (fun a b => p a ∧ R a b) a? b? := by
  cases h with
  | none => exact .none
  | some hab => exact .some ⟨hp _ rfl, hab⟩

end Optional

theorem getElem?_forall₂ (h : List.Forall₂ R as bs) (i : ℕ) : Option.Rel R as[i]? bs[i]? := by
  induction h generalizing i with
  | nil => exact .none
  | cons hab _ ih =>
    cases i with
    | zero => exact .some hab
    | succ i => exact ih i

theorem pick_forall₂ (h : List.Forall₂ R as bs) (places : List ℕ) :
    List.Forall₂ R (pick as places) (pick bs places) := by
  unfold pick
  apply List.rel_filterMap (R := Eq)
  · rintro i _ rfl
    exact getElem?_forall₂ h i
  · exact List.forall₂_refl places

theorem zipIdx_forall₂ (h : List.Forall₂ R as bs) (k : ℕ) :
    List.Forall₂ (fun a b => R a.1 b.1 ∧ a.2 = b.2) (as.zipIdx k) (bs.zipIdx k) := by
  induction h generalizing k with
  | nil => exact .nil
  | cons hab _ ih => exact .cons ⟨hab, rfl⟩ (ih (k + 1))

/-- Where the relation does not tell corresponding items apart, the graph is the same. -/
theorem ofItems_eq_of_forall₂ {relation : α → α → Bool} {relation' : β → β → Bool}
    (hrelation : ∀ a b, R a b → ∀ a' b', R a' b' → relation a a' = relation' b b')
    (h : List.Forall₂ R as bs) :
    DependencyGraph.ofItems relation as = DependencyGraph.ofItems relation' bs := by
  unfold DependencyGraph.ofItems
  apply congrArg DependencyGraph.mk
  apply map_eq_of_forall₂ _ h
  intro a b hab
  have hread := filter_forall₂ (p := fun other => relation a other.1)
    (q := fun other => relation' b other.1)
    (fun other other' hother => hrelation a b hab other.1 other'.1 hother.1) (zipIdx_forall₂ h 0)
  exact map_eq_of_forall₂ (fun _ _ hother => hother.2) hread

variable {K : κ → μ → Prop}

theorem biUnique_option (hK : BiUnique K) : BiUnique (Option.Rel K) := by
  constructor
  · intro a b c hac hbc
    cases hac with
    | none => cases hbc; rfl
    | some hac =>
      cases hbc with
      | some hbc => rw [hK.1 hac hbc]
  · intro a b c hab hac
    cases hab with
    | none => cases hac; rfl
    | some hab =>
      cases hac with
      | some hac => rw [hK.2 hab hac]

variable [BEq κ] [LawfulBEq κ] [BEq μ] [LawfulBEq μ]

theorem beq_eq_of_biUnique (hK : BiUnique K) {k k' : κ} {m m' : μ} (h : K k m) (h' : K k' m') :
    (k == k') = (m == m') := by
  rw [Bool.eq_iff_iff, beq_iff_eq, beq_iff_eq]
  exact rel_eq hK h h'

theorem distinct_forall₂ (hK : BiUnique K) {ks : List κ} {ms : List μ}
    (h : List.Forall₂ K ks ms) : List.Forall₂ K (distinct ks) (distinct ms) := by
  induction h with
  | nil => exact .nil
  | cons hkm _ ih =>
    apply List.Forall₂.cons hkm
    apply filter_forall₂ _ ih
    intro k m h
    rw [beq_eq_of_biUnique hK h hkm]

/-- Items collected by keys that correspond one to one. -/
theorem collectBy_forall₂ (hK : BiUnique K) {key : α → κ} {key' : β → μ}
    (hkey : ∀ a b, R a b → K (key a) (key' b)) (h : List.Forall₂ R as bs) :
    List.Forall₂ (List.Forall₂ R) (collectBy key as) (collectBy key' bs) := by
  rw [collectBy_eq, collectBy_eq]
  have hkeys : List.Forall₂ K (as.map key) (bs.map key') := List.rel_map hkey h
  apply List.rel_map _ (distinct_forall₂ hK hkeys)
  intro k m hkm
  exact filter_forall₂ (fun a b hab => beq_eq_of_biUnique hK (hkey a b hab) hkm) h

end EventRules

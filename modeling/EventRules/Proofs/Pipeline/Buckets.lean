import EventRules.Pipeline.Basic
import EventRules.Proofs.Distinct
import Mathlib.Data.List.Induction

/-! Collecting items by a key: a bucket for each key, in the order of the first items, that holds
the items of the key in their order. -/
namespace EventRules

variable {α κ : Type} [BEq κ] [LawfulBEq κ] (key : α → κ)

/-- Put an item into the bucket of its key, a new one if there is none. -/
def putBy (buckets : List (κ × List α)) (item : α) : List (κ × List α) :=
  if buckets.any fun bucket => bucket.1 == key item then
    buckets.map fun bucket =>
      if bucket.1 == key item then (bucket.1, bucket.2 ++ [item]) else bucket
  else buckets ++ [(key item, [item])]

/-- The bucket of a key. -/
def bucketOf (items : List α) (k : κ) : κ × List α := (k, items.filter fun a => key a == k)

theorem foldl_putBy (items : List α) :
    items.foldl (putBy key) [] = (distinct (items.map key)).map (bucketOf key items) := by
  induction items using List.reverseRecOn with
  | nil => rfl
  | append_singleton items a ih =>
    rw [List.foldl_append, ih, List.foldl_cons, List.foldl_nil, putBy, List.map_append,
      List.map_singleton]
    by_cases ha : key a ∈ items.map key
    · have hany : ((distinct (items.map key)).map (bucketOf key items)).any
          (fun bucket => bucket.1 == key a) = true := by
        simpa [bucketOf] using ha
      rw [if_pos hany, distinct_concat_of_mem ha, List.map_map]
      refine List.map_congr_left fun k _ => ?_
      by_cases hk : k = key a
      · simp [bucketOf, hk]
      · simp [bucketOf, hk, Ne.symm hk]
    · have hany : ¬ ((distinct (items.map key)).map (bucketOf key items)).any
          (fun bucket => bucket.1 == key a) = true := by
        simpa [bucketOf] using ha
      rw [if_neg hany, distinct_concat_of_notMem ha, List.map_append, List.map_singleton]
      congr 1
      · refine List.map_congr_left fun k hk => ?_
        have hne : key a ≠ k := by
          rintro rfl
          exact ha (mem_distinct.mp hk)
        simp [bucketOf, hne]
      · have hnone : items.filter (fun b => key b == key a) = [] := by
          rw [List.filter_eq_nil_iff]
          intro b hb hkey
          exact ha (List.mem_map.mpr ⟨b, hb, by simpa using hkey⟩)
        simp [bucketOf, hnone]

theorem collectBy_eq (items : List α) :
    collectBy key items =
      (distinct (items.map key)).map fun k => items.filter fun a => key a == k := by
  change (items.foldl (putBy key) []).map (·.2) = _
  rw [foldl_putBy, List.map_map]
  rfl

/-- Picking the items of one key after another loses none and repeats none. -/
theorem flatMap_filter_perm {keys : List κ} (hkeys : keys.Nodup) {items : List α}
    (h : ∀ a ∈ items, key a ∈ keys) :
    (keys.flatMap fun k => items.filter fun a => key a == k).Perm items := by
  induction keys generalizing items with
  | nil => simp [List.eq_nil_iff_forall_not_mem.mpr fun a ha => absurd (h a ha) (by simp)]
  | cons k rest ih =>
    obtain ⟨hk, hrest⟩ := List.nodup_cons.mp hkeys
    have hothers : rest.flatMap (fun k' => items.filter fun a => key a == k') =
        rest.flatMap fun k' =>
          (items.filter fun a => !(key a == k)).filter fun a => key a == k' := by
      refine List.flatMap_congr fun k' hk' => ?_
      rw [List.filter_filter]
      refine List.filter_congr fun a _ => ?_
      have hne : k' ≠ k := fun heq => hk (heq ▸ hk')
      by_cases ha : key a = k' <;> simp [ha, hne]
    have hmem : ∀ a ∈ items.filter fun a => !(key a == k), key a ∈ rest := by
      intro a ha
      obtain ⟨ha, hne⟩ := List.mem_filter.mp ha
      exact (List.mem_cons.mp (h a ha)).resolve_left (by simpa using hne)
    have hperm := ih hrest hmem
    rw [List.flatMap_cons, hothers]
    exact (hperm.append_left _).trans (List.filter_append_perm _ items)

/-- The buckets hold all items. -/
theorem collectBy_flatten_perm (items : List α) : (collectBy key items).flatten.Perm items := by
  rw [collectBy_eq, ← List.flatMap_def]
  refine flatMap_filter_perm key (nodup_distinct _) fun a ha => ?_
  exact mem_distinct.mpr (List.mem_map_of_mem ha)

theorem exists_mem_collectBy {items : List α} {a : α} (h : a ∈ items) :
    ∃ bucket ∈ collectBy key items, a ∈ bucket := by
  simp only [collectBy_eq, List.mem_map, mem_distinct]
  exact ⟨_, ⟨key a, ⟨a, h, rfl⟩, rfl⟩, by simp [h]⟩

theorem mem_of_mem_collectBy {items bucket : List α} {a : α} (hb : bucket ∈ collectBy key items)
    (h : a ∈ bucket) : a ∈ items := by
  simp only [collectBy_eq, List.mem_map] at hb
  obtain ⟨k, -, rfl⟩ := hb
  exact List.mem_of_mem_filter h

end EventRules

/-!
Repetition in lists: the distinct items, and the items that occur more than once.
-/
namespace EventRules

variable {α : Type} [BEq α]

/-- The distinct items, each at its first place. -/
def distinct : List α → List α
  | [] => []
  | a :: rest => a :: (distinct rest).filter fun b => !(b == a)

@[simp] theorem mem_distinct [LawfulBEq α] {a : α} {items : List α} :
    a ∈ distinct items ↔ a ∈ items := by
  induction items with
  | nil => rfl
  | cons b rest ih =>
    by_cases hab : a = b
    · simp [distinct, hab]
    · simp [distinct, ih, hab]

/-- The items that occur again after their first place, each once, in the order in which they are
first met again. -/
def repeated (items : List α) : List α :=
  let step := fun (state : List α × List α) (item : α) =>
    if state.1.contains item then (state.1, state.2 ++ [item]) else (item :: state.1, state.2)
  distinct (items.foldl step ([], [])).2

end EventRules

import EventRules.Text.Blank
import Mathlib.Data.List.DropRight

/-! Trimming leaves nothing of a blank text and something of any other. -/
namespace EventRules.Text

theorem trimFront_eq_nil_iff {cs : List Char} : trimFront cs = [] ↔ ∀ c ∈ cs, isBlankChar c :=
  List.dropWhile_eq_nil_iff

theorem trimChars_eq_nil_iff {cs : List Char} : trimChars cs = [] ↔ ∀ c ∈ cs, isBlankChar c := by
  have hfront : trimFront (trimFront cs) = trimFront cs := List.dropWhile_idempotent _ cs
  rw [trimChars, trimBack, List.reverse_eq_nil_iff, trimFront_eq_nil_iff]
  simp only [List.mem_reverse]
  rw [← trimFront_eq_nil_iff, hfront, trimFront_eq_nil_iff]

theorem trim_eq_empty_iff {s : String} : trim s = "" ↔ isBlank s := by
  rw [trim, ← String.toList_inj, String.toList_ofList, isBlank, List.all_eq_true]
  exact trimChars_eq_nil_iff

theorem nonBlank_ne_empty {value : Option String} {s : String} (h : nonBlank value = some s) :
    s ≠ "" := by
  cases value with
  | none => simp [nonBlank] at h
  | some t =>
    rw [nonBlank] at h
    split at h
    next => simp at h
    next hblank =>
      obtain rfl := Option.some.inj h
      rwa [ne_eq, trim_eq_empty_iff]

end EventRules.Text

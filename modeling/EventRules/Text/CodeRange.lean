/-!
Classes of characters as tables of ranges of code points.
-/
namespace EventRules.Text

/-- The code point of the character lies in one of the ranges, each given by its two ends. -/
def inRanges (ranges : List (Nat × Nat)) (c : Char) : Bool :=
  ranges.any fun range => range.1 ≤ c.toNat && c.toNat ≤ range.2

end EventRules.Text

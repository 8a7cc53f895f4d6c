import EventRules.Element
import EventRules.Json.Basic

/-!
Conditions: trees of groups over comparisons. A comparison keeps its operator, and a group its
type, as they are written, so that an unknown name is a matter of checking and not of reading.
-/
namespace EventRules

/-- What a node of a condition carries for display alone. -/
structure NodeLabel where
  id : Option String := none
  level : Option Json := none
  name : Option String := none

structure Comparison where
  label : NodeLabel := {}
  left : String := ""
  operatorName : String := ""
  right : List String := []

namespace Comparison

def operator? (c : Comparison) : Option Operator := Operator.ofName? c.operatorName

def elementKind? (c : Comparison) : Option ElementKind := c.operator?.map Operator.elementKind

def sources (c : Comparison) : List String := c.left :: c.right

def isBlank (c : Comparison) : Bool :=
  Text.isBlank c.left && Text.isBlank c.operatorName && c.right.all Text.isBlank

end Comparison

inductive Condition where
  | group (label : NodeLabel) (typeName : String) (members : List Condition)
  | comparison (value : Comparison)

namespace Condition

instance : Inhabited Condition := ⟨.comparison {}⟩

/-- What the condition is; none for a comparison whose operator is unknown. -/
def elementKind? : Condition → Option ElementKind
  | .group .. => some .conditionGroup
  | .comparison c => c.elementKind?

mutual

/-- The operands of all comparisons, from left to right. -/
def sources : Condition → List String
  | .group _ _ members => sourcesOf members
  | .comparison c => c.sources

def sourcesOf : List Condition → List String
  | [] => []
  | c :: rest => sources c ++ sourcesOf rest

end

end Condition

end EventRules

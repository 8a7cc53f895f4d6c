import EventRules.Condition.Basic
import EventRules.Problem

/-!
Checks of conditions: a comparison has its operands and a known operator, a group has a known type
and members.
-/
namespace EventRules

namespace Comparison

def shownOperator (c : Comparison) : String :=
  if Text.isBlank c.operatorName then "empty" else c.operatorName

/-- The right operands are filled, or the operator needs none. An unknown operator needs them. -/
def rightFilled (c : Comparison) : Bool :=
  !((c.operator?.map Operator.needsValues).getD true) ||
    (!c.right.isEmpty && c.right.all fun r => !Text.isBlank r)

/-- Check a comparison: left operand, operator, right operands. -/
def check (c : Comparison) : Check :=
  Check.all
    [Check.require (!Text.isBlank c.left) (.blankOperand .left),
      Check.require c.operator?.isSome (.unknownOperator c.shownOperator),
      Check.require c.rightFilled (.blankOperand .right)]

end Comparison

namespace Condition

mutual

def check : Condition → Check
  | .group _ typeName members =>
    Check.both (Check.require (GroupKind.ofName? typeName).isSome (.unknownGroup typeName))
      (Check.both (Check.require (!members.isEmpty) .emptyGroup) (checkAll members))
  | .comparison c => c.check

def checkAll : List Condition → Check
  | [] => Check.pass
  | c :: rest => Check.both (check c) (checkAll rest)

end

end Condition

end EventRules

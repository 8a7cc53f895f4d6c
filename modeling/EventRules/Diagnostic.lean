import EventRules.Json.Basic
import EventRules.Text.Template

/-!
Diagnostics as shown to users. Each has a code with a stable message number and a template, and
the arguments that fill the template.
-/
namespace EventRules

namespace Diagnostic

inductive Kind where
  | format
  | fieldValidation
  | actionDependency
  | ruleDependency
  | translation
  deriving DecidableEq

def Kind.word : Kind → String
  | .format => "format"
  | .fieldValidation => "fieldValidation"
  | .actionDependency => "actionDependency"
  | .ruleDependency => "ruleDependency"
  | .translation => "translation"

inductive Code where
  | invalidRuleFormat
  | missingRuleDescription
  | missingAction
  | missingActionField
  | missingConcatValue
  | invalidGroupCondition
  | missingConditionItem
  | missingOperand
  | invalidOperator
  | missingEntry
  | missingDefaultValue
  | duplicateKey
  | actionDependency
  | ruleDependency
  | translateFailed
  | unknownEventSchema
  deriving DecidableEq

def Code.messageId : Code → String
  | .invalidRuleFormat => "SVC6035"
  | .missingRuleDescription => "SVC6101"
  | .missingAction => "SVC6102"
  | .missingActionField => "SVC6103"
  | .missingConcatValue => "SVC6104"
  | .invalidGroupCondition => "SVC6105"
  | .missingConditionItem => "SVC6106"
  | .missingOperand => "SVC6107"
  | .invalidOperator => "SVC6108"
  | .missingEntry => "SVC6109"
  | .missingDefaultValue => "SVC6110"
  | .duplicateKey => "SVC6111"
  | .actionDependency => "SVC6112"
  | .ruleDependency => "SVC6113"
  | .translateFailed => "SVC6116"
  | .unknownEventSchema => "SVC6117"

def Code.template : Code → String
  | .invalidRuleFormat => "Error - Rule format is invalid: %1."
  | .missingRuleDescription => "Please enter a rule description"
  | .missingAction => "Please add at least one action"
  | .missingActionField => "Please fill the %1 field of %2 action to %3"
  | .missingConcatValue => "Please select at least two values for the concat action to %1"
  | .invalidGroupCondition => "Invalid group condition type: %1"
  | .missingConditionItem => "Please add at least one condition to the condition group"
  | .missingOperand => "Please fill the %1 operand of the condition"
  | .invalidOperator => "Invalid condition operator: %1"
  | .missingEntry => "Please fill all key/value pairs of the action to %1"
  | .missingDefaultValue => "Please fill the default value of the map action to %1"
  | .duplicateKey => "Duplicate key detected in the key/value list of the action to %1"
  | .actionDependency =>
    "A circular dependency was detected between actions. " ++
      "The following fields should be resolved: %1"
  | .ruleDependency =>
    "A circular dependency was detected between rules: %1 within fields: %2"
  | .translateFailed => "Translation failed. Reason: %1"
  | .unknownEventSchema => "Event schema version %1 with event type %2 is not supported"

def Code.kind : Code → Kind
  | .invalidRuleFormat => .format
  | .actionDependency => .actionDependency
  | .ruleDependency => .ruleDependency
  | .translateFailed => .translation
  | _ => .fieldValidation

end Diagnostic

structure Diagnostic where
  code : Diagnostic.Code
  arguments : List String
  deriving DecidableEq

namespace Diagnostic

def message (d : Diagnostic) : String := Text.renderTemplate d.code.template d.arguments

def line (d : Diagnostic) : String := d.code.messageId ++ ": " ++ d.message

def invalidFormat (reason : String) : Diagnostic := ⟨.invalidRuleFormat, [reason]⟩

def toJson (d : Diagnostic) : Json :=
  .object
    [("kind", .text d.code.kind.word), ("messageId", .text d.code.messageId),
      ("text", .text d.code.template), ("variables", .ofTexts d.arguments),
      ("message", .text d.message)]

end Diagnostic

end EventRules

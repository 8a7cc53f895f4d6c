import EventRules.Action.Basic
import EventRules.Action.Check
import EventRules.Action.Json
import EventRules.Batch
import EventRules.Binary64
import EventRules.Catalog.Basic
import EventRules.Catalog.Json
import EventRules.Catalog.Load
import EventRules.CommandLine.Arguments
import EventRules.CommandLine.Reference
import EventRules.CommandLine.Run
import EventRules.Compile
import EventRules.Condition.Basic
import EventRules.Condition.Check
import EventRules.Condition.Json
import EventRules.Dependency.Graph
import EventRules.Dependency.Resolution
import EventRules.Diagnostic
import EventRules.Distinct
import EventRules.Element
import EventRules.Encoding.Decode
import EventRules.Encoding.SingleByte
import EventRules.Encoding.Utf16
import EventRules.Encoding.Utf8
import EventRules.Filter
import EventRules.Host.Basic
import EventRules.Host.Fault
import EventRules.Host.Identifier
import EventRules.Host.Path
import EventRules.Host.Volume
import EventRules.Journal
import EventRules.Json.Basic
import EventRules.Json.Nesting
import EventRules.Json.Parser
import EventRules.Json.Printer
import EventRules.Json.Record
import EventRules.Json.Sentinel
import EventRules.Json.Token
import EventRules.Ordered
import EventRules.Payload
import EventRules.Phases
import EventRules.Pipeline.Basic
import EventRules.Problem
import EventRules.Processor
import EventRules.Rule.Basic
import EventRules.Rule.Check
import EventRules.Rule.Json
import EventRules.Schema.EventTypes
import EventRules.Schema.Pipeline
import EventRules.Schema.Violation
import EventRules.Settings.Basic
import EventRules.Settings.EnvFile
import EventRules.Text.Alphanumeric
import EventRules.Text.Blank
import EventRules.Text.CodeRange
import EventRules.Text.DecimalDigit
import EventRules.Text.Reference
import EventRules.Text.Template
import EventRules.Main
import EventRules.Proofs.Dependency.Cycle
import EventRules.Proofs.Dependency.Resolution
import EventRules.Proofs.Dependency.Order
import EventRules.Proofs.Check.Additive
import EventRules.Proofs.Filter.Meaning
import EventRules.Proofs.Filter.Truth
import EventRules.Proofs.Ordered
import EventRules.Proofs.Json.Sentinel
import EventRules.Proofs.Processor.Parts
import EventRules.Proofs.Processor.Machine
import EventRules.Proofs.Processor.Merge
import EventRules.Proofs.Dependency.Standing
import EventRules.Proofs.Dependency.Repetition
import EventRules.Proofs.Dependency.Component
import EventRules.Proofs.Distinct
import EventRules.Proofs.Pipeline.Buckets
import EventRules.Proofs.Pipeline.Chain
import EventRules.Proofs.Pipeline.Groups
import EventRules.Proofs.RuleSet.Accepted
import EventRules.Proofs.Pipeline.Run
import EventRules.Proofs.Pipeline.Document
import EventRules.Proofs.Pipeline.Course
import EventRules.Proofs.Pipeline.Execution
import EventRules.Proofs.Pipeline.Reach
import EventRules.Proofs.Schema.Conformance
import EventRules.Proofs.Text.Blank
import EventRules.Proofs.RuleSet.Conformance
import EventRules.Proofs.Pipeline.OuterPhases
import EventRules.Proofs.Pipeline.PhaseGraph
import EventRules.Proofs.Rule.Translation
import EventRules.Proofs.Action.Json
import EventRules.Proofs.RuleSet.Preservation
import EventRules.Proofs.Json.Record
import EventRules.Proofs.Condition.Json
import EventRules.Proofs.Rule.Json
import EventRules.Proofs.Payload.RoundTrip
import EventRules.Proofs.Dependency.CycleFields
import EventRules.Proofs.Text.Reference
import EventRules.Proofs.Processor.Updates
import EventRules.Proofs.RuleSet.Findings
import EventRules.Proofs.Host.Path
import EventRules.Proofs.Host.Volume
import EventRules.Proofs.Host.Program
import EventRules.Proofs.CommandLine.Agreement
import EventRules.Proofs.CommandLine.Batch
import EventRules.Proofs.Correspondence
import EventRules.Proofs.Check.Agreement
import EventRules.Proofs.Condition.Alike
import EventRules.Proofs.Action.Alike
import EventRules.Proofs.Rule.Alike
import EventRules.Proofs.RuleSet.Alike
import EventRules.Proofs.RuleSet.Metadata
import EventRules.Proofs.Pipeline.Layout
import EventRules.Proofs.Pipeline.JumpChain
import EventRules.Proofs.History
import EventRules.Proofs.RuleSet.Editing
import EventRules.Proofs.RuleSet.Notification
import EventRules.Proofs.Dependency.Stability
import EventRules.Proofs.Dependency.Writers
import EventRules.Proofs.Processor.Runs
import EventRules.Proofs.Text.Seam
import EventRules.Proofs.Action.Concatenation
import EventRules.Proofs.Filter.Reads
import EventRules.Proofs.Payload.UnknownKind
import EventRules.Proofs.Encoding.Utf8
import EventRules.Proofs.Encoding.Decode
import EventRules.Proofs.Progress
import EventRules.Proofs.Json.Within
import EventRules.Proofs.Action.Tables
import EventRules.Proofs.Action.EmptyValues
import EventRules.Proofs.Processor.Keys
import EventRules.Proofs.RuleSet.Sentinel
import EventRules.Proofs.Text.Template
import EventRules.Proofs.Text.Target
import EventRules.Proofs.Filter.Shape
import EventRules.Proofs.Json.Quote
import EventRules.Proofs.Schema.EventTypes
import EventRules.Proofs.Catalog.Table
import EventRules.Proofs.Catalog.Layouts

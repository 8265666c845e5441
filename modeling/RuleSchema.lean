import RuleSchema.Builder.Basic
import RuleSchema.Builder.File
import RuleSchema.Builder.Length
import RuleSchema.Builder.Number
import RuleSchema.Builder.Render
import RuleSchema.Builder.Rules
import RuleSchema.Builder.Setting
import RuleSchema.Builder.Text
import RuleSchema.CommandLine.Arguments
import RuleSchema.CommandLine.Outcome
import RuleSchema.Compilation
import RuleSchema.Condition.Basic
import RuleSchema.Condition.Expression
import RuleSchema.Configuration
import RuleSchema.Configuration.File
import RuleSchema.Datum
import RuleSchema.Definition
import RuleSchema.Fault
import RuleSchema.Field.Group
import RuleSchema.Field.Inference
import RuleSchema.Fragment
import RuleSchema.Handler.Basic
import RuleSchema.Handler.Compile
import RuleSchema.Handler.Place
import RuleSchema.Inheritance
import RuleSchema.Main
import RuleSchema.Message.Basic
import RuleSchema.Message.Catalog
import RuleSchema.Message.Collected
import RuleSchema.Message.English
import RuleSchema.Message.File
import RuleSchema.Message.Placeholder
import RuleSchema.Message.Session
import RuleSchema.Naming
import RuleSchema.Node.Basic
import RuleSchema.Node.Declared
import RuleSchema.Node.Tree
import RuleSchema.Number.Basic
import RuleSchema.Number.Binary64
import RuleSchema.Number.Shortest
import RuleSchema.Number.Text
import RuleSchema.Path
import RuleSchema.Proofs.ChainEdits
import RuleSchema.Proofs.DottedPaths
import RuleSchema.Proofs.FieldShapes
import RuleSchema.Proofs.GroupPlacement
import RuleSchema.Proofs.GroupedFields
import RuleSchema.Proofs.GroupedRules
import RuleSchema.Proofs.InheritanceOrder
import RuleSchema.Proofs.InheritanceRuns
import RuleSchema.Proofs.JoinedRules
import RuleSchema.Proofs.MessageLookup
import RuleSchema.Proofs.ResolvedTrees
import RuleSchema.Proofs.RuleNames
import RuleSchema.Proofs.TreeAddresses
import RuleSchema.Publication
import RuleSchema.Refinement.Access
import RuleSchema.Refinement.Branch
import RuleSchema.Refinement.Reference
import RuleSchema.Rule.Entry
import RuleSchema.Rule.Name
import RuleSchema.Rule.Normal
import RuleSchema.Rule.Object
import RuleSchema.Rule.Parameter
import RuleSchema.Rule.Segment
import RuleSchema.Rule.Value
import RuleSchema.Schema.Basic
import RuleSchema.Schema.Definition
import RuleSchema.Schema.Entry
import RuleSchema.Schema.Extracted
import RuleSchema.Schema.Order
import RuleSchema.Schema.Warning
import RuleSchema.Script.DateFormat
import RuleSchema.Script.Literal
import RuleSchema.Script.Pattern
import RuleSchema.Source
import RuleSchema.Table
import RuleSchema.Text.Blank
import RuleSchema.Text.Case
import RuleSchema.Text.CaseTable
import RuleSchema.Text.CharacterTable
import RuleSchema.Text.Cut
import RuleSchema.Text.CharacterClass
import RuleSchema.Text.Escape
import RuleSchema.Text.Record
import RuleSchema.Workspace
import RuleSchema.Yaml.Block
import RuleSchema.Yaml.Cursor
import RuleSchema.Yaml.Document
import RuleSchema.Yaml.Scalar
import RuleSchema.Yaml.Written
import RuleSchema.Proofs.SchemaOrder
import RuleSchema.Proofs.BuilderFrames
import RuleSchema.Proofs.NodeExpressions
import RuleSchema.Proofs.StackedItems
import RuleSchema.Proofs.LaidTrees
import RuleSchema.Proofs.RefinementPieces
import RuleSchema.Proofs.PlacedRefinements
import RuleSchema.Proofs.PlainExpansion
import RuleSchema.Proofs.CompilationRuns
import RuleSchema.Proofs.ExportedSchemas
import RuleSchema.Proofs.SchemaReferences
import RuleSchema.Proofs.GroupRoutes
import RuleSchema.Proofs.SpelledRoutes
import RuleSchema.Proofs.DeclaredObjects
import RuleSchema.Proofs.ShownProperties
import RuleSchema.Proofs.MarkerEntries
import RuleSchema.Proofs.GroupGrowth
import RuleSchema.Proofs.NodeShapes
import RuleSchema.Proofs.GroupNames
import RuleSchema.Proofs.MarkedGroups
import RuleSchema.Proofs.MessagePaths
import RuleSchema.Proofs.NestedExpansions
import RuleSchema.Proofs.AttachedLiterals
import RuleSchema.Proofs.SplitSegments
import RuleSchema.Proofs.SegmentCounts
import RuleSchema.Proofs.InheritedRules
import RuleSchema.Proofs.InheritedMessages
import RuleSchema.Proofs.RegistryOrder
import RuleSchema.Proofs.FailedRules
import RuleSchema.Proofs.WrittenIntegers
import RuleSchema.Proofs.BoundRules
import RuleSchema.Proofs.LengthBounds
import RuleSchema.Proofs.NumberBounds
import RuleSchema.Proofs.ClassReadings
import RuleSchema.Proofs.PatternLiterals
import RuleSchema.Proofs.RequiredFormats
import RuleSchema.Proofs.SegmentGaps
import RuleSchema.Proofs.MergedRules
import RuleSchema.Proofs.WrittenEntries
import RuleSchema.Proofs.WrappedPatterns
import RuleSchema.Proofs.ComparedValues
import RuleSchema.Proofs.DataEquality
import RuleSchema.Proofs.ExtractedComparisons
import RuleSchema.Proofs.StringLiterals
import RuleSchema.Proofs.MessageSlots
import RuleSchema.Proofs.RuleMessages
import RuleSchema.Proofs.BaseMessages
import RuleSchema.Proofs.BranchMessages
import RuleSchema.Proofs.MessageLiterals
import RuleSchema.Proofs.FailedContexts
import RuleSchema.Proofs.DateParameters
import RuleSchema.Proofs.FilledPlaceholders
import RuleSchema.Proofs.DecimalLiterals
import RuleSchema.Proofs.ParameterPlaces
import RuleSchema.Proofs.NumericPlaces
import RuleSchema.Proofs.MeasuredPlaces
import RuleSchema.Proofs.PlacedNumbers
import RuleSchema.Proofs.DottedLookups
import RuleSchema.Proofs.LayeredMessages
import RuleSchema.Proofs.CollectedMessages
import RuleSchema.Proofs.RuleOrders
import RuleSchema.Proofs.CollectedFragments
import RuleSchema.Proofs.CopiedSubtrees
import RuleSchema.Proofs.SiblingReferences
import RuleSchema.Proofs.JsonLiterals
import RuleSchema.Proofs.ChosenValues
import RuleSchema.Proofs.DateFormats
import RuleSchema.Proofs.LoadedHandlers
import RuleSchema.Proofs.PropertyNames

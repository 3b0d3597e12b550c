import JackVM.Main
import JackVM.Proofs.ExpressionReading
import JackVM.Proofs.StatementReading
import JackVM.Proofs.DeclaredNames
import JackVM.Proofs.ClassReading
import JackVM.Proofs.ExpressionAcceptance
import JackVM.Proofs.StatementAcceptance
import JackVM.Proofs.ClassAcceptance
import JackVM.Proofs.ReferenceCompiler
import JackVM.Proofs.Subroutines
import JackVM.Proofs.StackDepth
import JackVM.Proofs.Evaluation
import JackVM.Proofs.ExpressionValue
import JackVM.Proofs.LabelNumbers
import JackVM.Proofs.Stepping
import JackVM.Proofs.Execution
import JackVM.Proofs.BlockEntry
import JackVM.Proofs.ControlFlow
import JackVM.Proofs.Actions
import JackVM.Proofs.Productions
import JackVM.Proofs.JumpTargets
import JackVM.Proofs.LabelScopes
import JackVM.Proofs.Constants
import JackVM.Proofs.Accesses
import JackVM.Proofs.CurrentObject
import JackVM.Proofs.Places
import JackVM.Proofs.ReceiverBinding
import JackVM.Proofs.StorageBounds
import JackVM.Proofs.Sentences
import JackVM.Proofs.Goals
import JackVM.Proofs.GoalSteps
import JackVM.Proofs.Prefixes
import JackVM.CursorResults
import JackVM.Proofs.Blame
import JackVM.Proofs.Following
import JackVM.Proofs.EarliestErrors
import JackVM.Proofs.RuleChecks
import JackVM.Proofs.Settling
import JackVM.Proofs.LeftmostFaults
import JackVM.Proofs.Unambiguity
import JackVM.Proofs.Independence
import JackVM.Proofs.InStep
import JackVM.Proofs.ProductionsInStep
import JackVM.Proofs.TwoRuns
import JackVM.Proofs.TokenDependence
import JackVM.Proofs.HandingOver
import JackVM.Proofs.Positions
import JackVM.Proofs.FurtherCalls
import JackVM.Proofs.Layouts
import JackVM.Proofs.TakingBack
import JackVM.Proofs.Portions
import JackVM.Proofs.DeclarationLog
import JackVM.Proofs.OutputPaths
import JackVM.Proofs.PathPlaces
import JackVM.Proofs.TreeChanges
import JackVM.Proofs.BuildSteps
import JackVM.Proofs.OutputReplacement
import JackVM.Proofs.FailedReplacement
import JackVM.Proofs.Confinement
import JackVM.Proofs.SeparateBuilds
import JackVM.Proofs.Schedules
import JackVM.Proofs.WorkerRuns
import JackVM.Proofs.SourceListing
import JackVM.Proofs.ParallelBuilds
import JackVM.Proofs.CodeReader
import JackVM.Proofs.NamesInCode
import JackVM.Proofs.AgreeingRuns
import JackVM.Proofs.SourceEvents
import JackVM.Proofs.Orderly
import JackVM.Proofs.OrderlyProductions
import JackVM.Proofs.SingleLookahead
import JackVM.Proofs.LineEnds
import JackVM.Proofs.VariableIndices
import JackVM.Proofs.SourceDiscovery
import JackVM.Proofs.WordMeanings
import JackVM.Proofs.TrimmedPaths

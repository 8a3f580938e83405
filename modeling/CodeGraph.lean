import CodeGraph.Binary.Item
import CodeGraph.GraphFile.Check
import CodeGraph.GraphFile.Save
import CodeGraph.Json.Values
import CodeGraph.Operation
import CodeGraph.Walk.Description
import CodeGraph.Proofs.Edits
import CodeGraph.Proofs.EdgeChanges
import CodeGraph.Proofs.History
import CodeGraph.Proofs.Structure
import CodeGraph.Proofs.Typing
import CodeGraph.Proofs.Incoming
import CodeGraph.Proofs.IndexUpkeep
import CodeGraph.Proofs.Loading
import CodeGraph.Proofs.WalkCoverage
import CodeGraph.Proofs.WalkExtent
import CodeGraph.Proofs.Texts
import CodeGraph.Proofs.FileHeader
import CodeGraph.Proofs.Saving
import CodeGraph.Proofs.RoundTrip
import CodeGraph.Proofs.MoreBytes
import CodeGraph.Proofs.Truncation
import CodeGraph.Proofs.RootRestored
import CodeGraph.Proofs.Interning
import CodeGraph.Proofs.Views
import CodeGraph.Proofs.ValueRecord
import CodeGraph.Proofs.ValueCalls
import CodeGraph.Proofs.Filing
import CodeGraph.Proofs.ValueUniqueness
import CodeGraph.Proofs.Twins
import CodeGraph.Proofs.ValuesRestored
import CodeGraph.Proofs.Nesting
import CodeGraph.Proofs.NestingChanges
import CodeGraph.Proofs.Parents
import CodeGraph.Proofs.Ancestry
import CodeGraph.Proofs.StaleValues
import CodeGraph.Proofs.Subtree
import CodeGraph.Proofs.FilterStates
import CodeGraph.Proofs.Visibility
import CodeGraph.Proofs.WalkSteps
import CodeGraph.Proofs.VisitorEvents
import CodeGraph.Proofs.EventTraces
import CodeGraph.Proofs.Failures
import CodeGraph.Proofs.FilterFiles
import CodeGraph.Proofs.FilterCoverage
import CodeGraph.Proofs.TextHistories
import CodeGraph.Proofs.HeaderRecords
import CodeGraph.Proofs.StoredHeaders
import CodeGraph.Proofs.HeadersRestored
import CodeGraph.Proofs.Verdicts
import CodeGraph.Proofs.LimitedSinks
import CodeGraph.Proofs.NodeChanges
import CodeGraph.Proofs.Stability
import CodeGraph.Proofs.Directories
import CodeGraph.Proofs.Paths
import CodeGraph.Proofs.WalkLimits
import CodeGraph.Proofs.SafeWalks
import CodeGraph.Proofs.ForestWalks
import CodeGraph.Proofs.CollectedNodes
import CodeGraph.Proofs.FailedFiles
import CodeGraph.Proofs.FilterEffects
import CodeGraph.Proofs.FilterHistories
import CodeGraph.Proofs.SavedBytes
import CodeGraph.Proofs.TextRestored
import CodeGraph.Proofs.OverrideCalls
import CodeGraph.Proofs.TypeIdentity
import CodeGraph.Proofs.FullPaths
import CodeGraph.Proofs.ItemSequences
import CodeGraph.Proofs.IdSetHistories

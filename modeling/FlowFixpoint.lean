import FlowFixpoint.Ident
import FlowFixpoint.Text.Printable
import FlowFixpoint.Text.Quoted
import FlowFixpoint.Domain.Integer
import FlowFixpoint.Domain.Join
import FlowFixpoint.Domain.Flat
import FlowFixpoint.Domain.Env
import FlowFixpoint.Graph.Node
import FlowFixpoint.Graph.Basic
import FlowFixpoint.Graph.Malformed
import FlowFixpoint.Graph.Shape
import FlowFixpoint.Graph.Draft
import FlowFixpoint.Graph.Direction
import FlowFixpoint.Graph.DepthFirst
import FlowFixpoint.Graph.Order
import FlowFixpoint.Flow.Basic
import FlowFixpoint.Flow.Outcome
import FlowFixpoint.Flow.Analysis
import FlowFixpoint.Json.Scan
import FlowFixpoint.Json.Magnitude
import FlowFixpoint.Settings.Basic
import FlowFixpoint.Settings.Text
import FlowFixpoint.Fixpoint.Fault
import FlowFixpoint.Fixpoint.Worklist
import FlowFixpoint.Fixpoint.Findings
import FlowFixpoint.Fixpoint.Pass
import FlowFixpoint.Fixpoint.Run
import FlowFixpoint.Report
import FlowFixpoint.Workspace
import FlowFixpoint.Analyses.Constants
import FlowFixpoint.Analyses.Nullness
import FlowFixpoint.Analyses.LiveLocals
import FlowFixpoint.Analyses.Intervals
import FlowFixpoint.Analyses.Tally
import FlowFixpoint.Analyses.Tags
import FlowFixpoint.Proofs.BlockForms
import FlowFixpoint.Proofs.BuiltGraph
import FlowFixpoint.Proofs.GraphViews
import FlowFixpoint.Proofs.Ownership
import FlowFixpoint.Proofs.Acceptance
import FlowFixpoint.Proofs.JoinLaws
import FlowFixpoint.Proofs.LeastBounds
import FlowFixpoint.Proofs.Pending
import FlowFixpoint.Proofs.Delivery
import FlowFixpoint.Proofs.Crossings
import FlowFixpoint.Proofs.Visits
import FlowFixpoint.Proofs.FinishingOrder
import FlowFixpoint.Proofs.DepthFirstOrder
import FlowFixpoint.Proofs.History
import FlowFixpoint.Proofs.Coverage
import FlowFixpoint.Proofs.StaleReads
import FlowFixpoint.Proofs.LastVisits
import FlowFixpoint.Proofs.InertSettings
import FlowFixpoint.Proofs.Arrivals
import FlowFixpoint.Proofs.Liveness
import FlowFixpoint.Proofs.Executions
import FlowFixpoint.Proofs.ConstantSoundness
import FlowFixpoint.Proofs.OnePass
import FlowFixpoint.Proofs.WideningChains
import FlowFixpoint.Proofs.Termination
import FlowFixpoint.Proofs.ReportReach
import FlowFixpoint.Proofs.StayingInside
import FlowFixpoint.Proofs.WideningPoints
import FlowFixpoint.Proofs.Settling
import FlowFixpoint.Proofs.EvaluationOrder
import FlowFixpoint.Proofs.CopiedValues
import FlowFixpoint.Proofs.Stitching
import FlowFixpoint.Proofs.Numbering
import FlowFixpoint.Proofs.BranchRefinement
import FlowFixpoint.Proofs.StoreChains
import FlowFixpoint.Proofs.StackWalks
import FlowFixpoint.Proofs.BlockOrders
import FlowFixpoint.Proofs.MergedReads
import FlowFixpoint.Proofs.NullnessEffects
import FlowFixpoint.Proofs.CoveredLocals
import FlowFixpoint.Proofs.NullnessFacts
import FlowFixpoint.Proofs.NullnessRuns
import FlowFixpoint.Proofs.VisitLimits
import FlowFixpoint.Proofs.NodeFreeBlocks
import FlowFixpoint.Proofs.MachineArithmetic
import FlowFixpoint.Proofs.StraightLine
import FlowFixpoint.Proofs.FinalLocals
import FlowFixpoint.Proofs.ExactFolding
import FlowFixpoint.Proofs.WrittenJson
import FlowFixpoint.Proofs.ScannedJson
import FlowFixpoint.Proofs.SettingsReader
import FlowFixpoint.Proofs.SettingsRoundTrip
import FlowFixpoint.Proofs.RankedSet

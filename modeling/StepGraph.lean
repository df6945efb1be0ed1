import StepGraph.Main
import StepGraph.Session
import StepGraph.Proofs.CompleteChain
import StepGraph.Proofs.Decompilation
import StepGraph.Proofs.ExpandedSearch
import StepGraph.Proofs.NamePartition
import StepGraph.Proofs.Reading
import StepGraph.Proofs.FirstFault
import StepGraph.Proofs.FaultPlaces
import StepGraph.Proofs.WellFormed
import StepGraph.Proofs.Rejoining
import StepGraph.Proofs.ExpansionFrame
import StepGraph.Proofs.Traversal
import StepGraph.Proofs.LongForm
import StepGraph.Proofs.PlanSlot
import StepGraph.Proofs.RepeatedExpansion
import StepGraph.Proofs.CommandAgreement
import StepGraph.Proofs.ExplicitTypes
import StepGraph.Proofs.FirstObstacle
import StepGraph.Proofs.NearestDouble
import StepGraph.Proofs.JsonAsYaml
import StepGraph.Proofs.CollidingKeys
import StepGraph.Proofs.PlanLookup
import StepGraph.Proofs.ReportedStates
import StepGraph.Proofs.ShapeConflicts
import StepGraph.Proofs.AddedStates
import StepGraph.Proofs.NameRecord
import StepGraph.Proofs.NameSearch

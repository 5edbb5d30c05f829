import CoverageFlow.Coverage.Open
import CoverageFlow.Coverage.Report
import CoverageFlow.Coverage.Snapshot
import CoverageFlow.Graph.Diagram
import CoverageFlow.Proofs.Coverage.Frame
import CoverageFlow.Proofs.Coverage.Grouping
import CoverageFlow.Proofs.Coverage.Order
import CoverageFlow.Proofs.Flow.Backing
import CoverageFlow.Proofs.Flow.Bookkeeping
import CoverageFlow.Proofs.Flow.Circulation
import CoverageFlow.Proofs.Flow.Exactness
import CoverageFlow.Proofs.Flow.Idempotence
import CoverageFlow.Proofs.Flow.Renumbering
import CoverageFlow.Proofs.Flow.Rounds
import CoverageFlow.Proofs.Graph.Additivity
import CoverageFlow.Proofs.Graph.Attributes
import CoverageFlow.Proofs.Graph.Conservation
import CoverageFlow.Proofs.Graph.Convergence
import CoverageFlow.Proofs.Graph.Diagram
import CoverageFlow.Proofs.Graph.Execution
import CoverageFlow.Proofs.Graph.Frame
import CoverageFlow.Proofs.Graph.Obstacle
import CoverageFlow.Proofs.Graph.Statistics
import CoverageFlow.Proofs.Graph.WellFormed
import CoverageFlow.Proofs.Path.ReportNames
import CoverageFlow.Proofs.Path.UnitOrder
import CoverageFlow.Proofs.Reader.DataLanguage
import CoverageFlow.Proofs.Reader.Diagnosis
import CoverageFlow.Proofs.Reader.NotesLanguage
import CoverageFlow.Proofs.Reader.RoundTrip
import CoverageFlow.Proofs.Reader.SpareWords
import CoverageFlow.Proofs.Reader.Stack

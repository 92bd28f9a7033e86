import Interproc.Abstract.Disjunction
import Interproc.Abstract.Domain
import Interproc.Collections.SortedMap
import Interproc.Collections.SortedSet
import Interproc.Collections.Table
import Interproc.Digraph.Basic
import Interproc.Digraph.Dominators
import Interproc.Digraph.NaturalLoop
import Interproc.Error
import Interproc.Fixpoint.Answer
import Interproc.Fixpoint.Arena
import Interproc.Fixpoint.Counterexample
import Interproc.Fixpoint.Engine
import Interproc.Fixpoint.Event
import Interproc.Fixpoint.Exits
import Interproc.Fixpoint.Ids
import Interproc.Fixpoint.Item
import Interproc.Fixpoint.Layers
import Interproc.Fixpoint.Options
import Interproc.Fixpoint.Report
import Interproc.Fixpoint.Run
import Interproc.Fixpoint.Statistics
import Interproc.Fixpoint.Summaries
import Interproc.Fixpoint.Timer
import Interproc.Fixpoint.Worklist
import Interproc.Interval.Analysis
import Interproc.Interval.Basic
import Interproc.Interval.Command
import Interproc.Interval.State
import Interproc.Interval.Statement
import Interproc.Json.Document
import Interproc.Json.Value
import Interproc.Program.Basic
import Interproc.Program.Flow
import Interproc.Proofs.Accounting
import Interproc.Proofs.Activations
import Interproc.Proofs.Approximation
import Interproc.Proofs.CallStrings
import Interproc.Proofs.Chains
import Interproc.Proofs.Concretization
import Interproc.Proofs.Coverage
import Interproc.Proofs.Deliveries
import Interproc.Proofs.Digraphs
import Interproc.Proofs.Disjunctions
import Interproc.Proofs.Dominance
import Interproc.Proofs.Dominators
import Interproc.Proofs.Exactness
import Interproc.Proofs.Failures
import Interproc.Proofs.Flow
import Interproc.Proofs.Forgetting
import Interproc.Proofs.Handover
import Interproc.Proofs.Histories
import Interproc.Proofs.Indexing
import Interproc.Proofs.Insertions
import Interproc.Proofs.Intervals
import Interproc.Proofs.Isolation
import Interproc.Proofs.Layering
import Interproc.Proofs.LoopCounts
import Interproc.Proofs.LoopTables
import Interproc.Proofs.NaturalLoops
import Interproc.Proofs.Origins
import Interproc.Proofs.Ownership
import Interproc.Proofs.Passes
import Interproc.Proofs.Pending
import Interproc.Proofs.Potential
import Interproc.Proofs.Precision
import Interproc.Proofs.Progress
import Interproc.Proofs.Propagation
import Interproc.Proofs.Reachability
import Interproc.Proofs.Recursion
import Interproc.Proofs.RecursionDepth
import Interproc.Proofs.Reentry
import Interproc.Proofs.References
import Interproc.Proofs.Reports
import Interproc.Proofs.Retention
import Interproc.Proofs.Safety
import Interproc.Proofs.Soundness
import Interproc.Proofs.Stabilization
import Interproc.Proofs.StandIns
import Interproc.Proofs.Steps
import Interproc.Proofs.Storage
import Interproc.Proofs.Structure
import Interproc.Proofs.Substitution
import Interproc.Proofs.Summaries
import Interproc.Proofs.Termination
import Interproc.Proofs.Traces
import Interproc.Proofs.Uses
import Interproc.Proofs.Wiring
import Interproc.Residue.ActionTable
import Interproc.Residue.Set
import Interproc.Text.CharSet
import Interproc.Text.Combining
import Interproc.Text.Inspect
import Interproc.Text.Invisible

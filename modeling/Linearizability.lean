import Linearizability.Decimal.FloatText
import Linearizability.Linearization
import Linearizability.Main
import Linearizability.Proofs.History.Complete
import Linearizability.Proofs.Model.ByteSet
import Linearizability.Proofs.Search.Circle
import Linearizability.Proofs.Search.Completion
import Linearizability.Proofs.Search.Ending
import Linearizability.Proofs.Search.Exploration
import Linearizability.Proofs.Search.Invariant
import Linearizability.Proofs.Search.Simulation
import Linearizability.Proofs.Search.Steps
import Linearizability.Proofs.Search.Least
import Linearizability.Proofs.Search.Memory
import Linearizability.Proofs.Search.Path
import Linearizability.Proofs.Search.PathList
import Linearizability.Proofs.Search.Verdict
import Linearizability.Proofs.Slicing.Locality
import Linearizability.Proofs.Slicing.Cut
import Linearizability.Proofs.Slicing.Parts
import Linearizability.Proofs.Slicing.Verdict
import Linearizability.Proofs.Search.Plain
import Linearizability.Proofs.Search.Agreement
import Linearizability.Proofs.Search.Independence
import Linearizability.Proofs.Search.Loop
import Linearizability.Proofs.History.Assembly
import Linearizability.Proofs.Experiment.Account
import Linearizability.Proofs.Experiment.Session
import Linearizability.Proofs.Experiment.Refinement
import Linearizability.Proofs.Model.Stack
import Linearizability.Proofs.Model.Queue
import Linearizability.Proofs.Experiment.Verdict
import Linearizability.Proofs.Search.Coverage
import Linearizability.Proofs.Search.Savings
import Linearizability.Proofs.Experiment.Outcome
import Linearizability.Proofs.Model.Register
import Linearizability.Proofs.History.Finalization
import Linearizability.Proofs.History.Producers
import Linearizability.Proofs.History.Attempts
import Linearizability.Proofs.Experiment.Sequential
import Linearizability.Proofs.Search.Cutoff
import Linearizability.Proofs.Slicing.Excerpt
import Linearizability.Proofs.Search.Trace
import Linearizability.Proofs.Slicing.Gather
import Linearizability.Proofs.Slicing.Partition
import Linearizability.Proofs.Bitset.Positions
import Linearizability.Proofs.History.Copy
import Linearizability.Proofs.RecencySet.Window
import Linearizability.Proofs.Model.Contents
import Linearizability.Proofs.Model.Commutation
import Linearizability.Proofs.Model.QueueRoutes
import Linearizability.Proofs.Model.Memoizable
import Linearizability.Proofs.Model.StackVersions
import Linearizability.Proofs.Search.Statistics
import Linearizability.Proofs.Search.Negative
import Linearizability.Proofs.Search.Headline
import Linearizability.Proofs.Slicing.Refusal
import Linearizability.Proofs.Search.Undoing
import Linearizability.Proofs.Config.RoundTrip

import LogicNet.Bench.Reader
import LogicNet.Bench.Statement
import LogicNet.Bench.Writer
import LogicNet.Cnf.Basic
import LogicNet.Cnf.Encode
import LogicNet.Cnf.Formula
import LogicNet.Cnf.Rule
import LogicNet.Cnf.Search
import LogicNet.Command.Arguments
import LogicNet.Command.Run
import LogicNet.Design.Basic
import LogicNet.Design.Binding
import LogicNet.Design.Report
import LogicNet.Equivalence.Checker
import LogicNet.Equivalence.Hints
import LogicNet.Equivalence.Miter
import LogicNet.Equivalence.RandomCheck
import LogicNet.Equivalence.Trace
import LogicNet.Fault
import LogicNet.Gate.Basic
import LogicNet.Gate.Function
import LogicNet.Main
import LogicNet.Netlist.Basic
import LogicNet.Netlist.Consistency
import LogicNet.Netlist.Division
import LogicNet.Netlist.Edit
import LogicNet.Netlist.Flow
import LogicNet.Netlist.Import
import LogicNet.Netlist.Sample
import LogicNet.Netlist.Sort
import LogicNet.Netlist.Tally
import LogicNet.Netlist.View
import LogicNet.Part
import LogicNet.Proofs.Cnf.Encode
import LogicNet.Proofs.Cnf.Extension
import LogicNet.Proofs.Cnf.Rule
import LogicNet.Proofs.Equivalence.Exhaustive
import LogicNet.Proofs.Equivalence.Solving
import LogicNet.Proofs.Equivalence.Triggers
import LogicNet.Proofs.Netlist.Boundary
import LogicNet.Proofs.Netlist.Consistent
import LogicNet.Proofs.Netlist.Dividing
import LogicNet.Proofs.Netlist.Editing
import LogicNet.Proofs.Netlist.Reachable
import LogicNet.Proofs.Netlist.Sorting
import LogicNet.Proofs.Netlist.Wiring
import LogicNet.Proofs.Result
import LogicNet.Proofs.Simulation.Lanes
import LogicNet.Proofs.Simulation.Lockstep
import LogicNet.Proofs.Simulation.Program
import LogicNet.Proofs.TopologicalOrder
import LogicNet.Proofs.Valuation
import LogicNet.Random
import LogicNet.Signal
import LogicNet.Simulation.Basic
import LogicNet.Simulation.Pattern
import LogicNet.Storage.Directory
import LogicNet.Storage.Journal
import LogicNet.Storage.Netlist
import LogicNet.Storage.Path
import LogicNet.SwapErase
import LogicNet.Text.Capital
import LogicNet.Text.Line
import LogicNet.Text.Piece
import LogicNet.Text.Shown
import LogicNet.TopologicalOrder
import LogicNet.Proofs.Simulation.Cutting
import LogicNet.Proofs.Cnf.Unrolling
import LogicNet.Proofs.Equivalence.Mapping
import LogicNet.Proofs.Equivalence.Parts
import LogicNet.Proofs.Netlist.Copying
import LogicNet.Proofs.Equivalence.Images
import LogicNet.Proofs.Equivalence.Reflexive
import LogicNet.Proofs.Equivalence.Encoding
import LogicNet.Proofs.Equivalence.EncodedRuns
import LogicNet.Proofs.Equivalence.IdentityEncoding
import LogicNet.Proofs.Netlist.Importing
import LogicNet.Proofs.Netlist.Growing
import LogicNet.Proofs.Equivalence.Joining
import LogicNet.Proofs.Equivalence.Miter
import LogicNet.Proofs.Equivalence.MiterCheck
import LogicNet.Proofs.Equivalence.Coverage
import LogicNet.Proofs.Equivalence.RandomMiter
import LogicNet.Proofs.Bench.RoundTrip
import LogicNet.Proofs.Bench.Behaviour
import LogicNet.Proofs.Netlist.Flow
import LogicNet.Proofs.Netlist.Operations
import LogicNet.Proofs.Netlist.Sharing
import LogicNet.Proofs.Netlist.Order
import LogicNet.Proofs.Netlist.TopologicalSort
import LogicNet.Proofs.Cnf.Appending
import LogicNet.Proofs.Cnf.Exactness
import LogicNet.Proofs.Simulation.Recursion
import LogicNet.Proofs.Simulation.Iteration
import LogicNet.Proofs.Equivalence.Isomorphism
import LogicNet.Proofs.Netlist.Answers
import LogicNet.Proofs.Netlist.Beside
import LogicNet.Proofs.Netlist.Grafting
import LogicNet.Proofs.Equivalence.Acceptance
import LogicNet.Proofs.Bench.Ports
import LogicNet.Proofs.Bench.Loops
import LogicNet.Proofs.Bench.Totality
import LogicNet.Proofs.Cnf.Search
import LogicNet.Proofs.Design.Binding
import LogicNet.Proofs.Design.Report
import LogicNet.Proofs.Netlist.Origins
import LogicNet.Proofs.Simulation.Patterns
import LogicNet.Proofs.Netlist.Listing
import LogicNet.Proofs.Simulation.DelayLine
import LogicNet.Proofs.Netlist.Slicing
import LogicNet.Proofs.Netlist.RandomLogic
import LogicNet.Proofs.Cnf.Growth
import LogicNet.Proofs.Cnf.Interning

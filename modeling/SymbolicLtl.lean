import SymbolicLtl.Automaton.Basic
import SymbolicLtl.Automaton.NeverClaim
import SymbolicLtl.CommandLine.Flags
import SymbolicLtl.CommandLine.Run
import SymbolicLtl.Counting
import SymbolicLtl.Diagram.Basic
import SymbolicLtl.Diagram.Cardinality
import SymbolicLtl.Diagram.Sharing
import SymbolicLtl.Diagram.Table
import SymbolicLtl.Diagram.Tree
import SymbolicLtl.Diagram.Workspace
import SymbolicLtl.Double
import SymbolicLtl.Emptiness.Checker
import SymbolicLtl.Emptiness.Response
import SymbolicLtl.Family
import SymbolicLtl.Files
import SymbolicLtl.Formula.Basic
import SymbolicLtl.Formula.Parser
import SymbolicLtl.Formula.Scope
import SymbolicLtl.Formula.Sketch
import SymbolicLtl.Formula.Token
import SymbolicLtl.Json.Fields
import SymbolicLtl.Json.Reader
import SymbolicLtl.Json.Value
import SymbolicLtl.Json.Whole
import SymbolicLtl.Log
import SymbolicLtl.Main
import SymbolicLtl.Memo
import SymbolicLtl.Misuse
import SymbolicLtl.Model.Basic
import SymbolicLtl.Model.Counter
import SymbolicLtl.Model.Text
import SymbolicLtl.Network.ActiveCounter
import SymbolicLtl.Network.Message
import SymbolicLtl.Network.Progress
import SymbolicLtl.Network.Run
import SymbolicLtl.Network.Worker
import SymbolicLtl.Reachability.ForkJoin
import SymbolicLtl.Reachability.Search
import SymbolicLtl.Reachability.StateSets
import SymbolicLtl.Reachability.Strategy
import SymbolicLtl.Relation.Basic
import SymbolicLtl.Proofs.Diagram.Dependence
import SymbolicLtl.Proofs.Reachability.Search
import SymbolicLtl.Proofs.Relation.Copies
import SymbolicLtl.Proofs.Relation.Image
import SymbolicLtl.Proofs.Relation.States
import SymbolicLtl.Service.Address
import SymbolicLtl.Service.Message
import SymbolicLtl.Service.Options
import SymbolicLtl.Service.Server
import SymbolicLtl.Shell.Arithmetic
import SymbolicLtl.Shell.Builtin
import SymbolicLtl.Shell.Expansion
import SymbolicLtl.Shell.Floating
import SymbolicLtl.Shell.Interpreter
import SymbolicLtl.Shell.Number
import SymbolicLtl.Shell.Pattern
import SymbolicLtl.Shell.Printf
import SymbolicLtl.Shell.Program
import SymbolicLtl.Shell.Script
import SymbolicLtl.Shell.State
import SymbolicLtl.Shell.System
import SymbolicLtl.Shell.Test
import SymbolicLtl.Shell.Token
import SymbolicLtl.Shell.Word
import SymbolicLtl.Slicing.Layout
import SymbolicLtl.Slicing.Slice
import SymbolicLtl.Text.Beginning
import SymbolicLtl.Text.Bytes
import SymbolicLtl.Text.CharClass
import SymbolicLtl.Text.Columns
import SymbolicLtl.Text.Duration
import SymbolicLtl.Text.Integer
import SymbolicLtl.Text.Quoted
import SymbolicLtl.Translator.Basic
import SymbolicLtl.Translator.Program
import SymbolicLtl.Verifier.Run
import SymbolicLtl.Verifier.Settings
import SymbolicLtl.Word
import SymbolicLtl.Proofs.Reachability.States
import SymbolicLtl.Proofs.Emptiness.FairStates
import SymbolicLtl.Proofs.Emptiness.Verdict
import SymbolicLtl.Proofs.Network.Packets
import SymbolicLtl.Proofs.Network.Steps
import SymbolicLtl.Proofs.Network.Books
import SymbolicLtl.Proofs.Network.Quiescence
import SymbolicLtl.Proofs.Network.Liveness
import SymbolicLtl.Proofs.Network.Agreement
import SymbolicLtl.Proofs.Diagram.RoundTrip
import SymbolicLtl.Proofs.Attempt
import SymbolicLtl.Proofs.Json.Whole
import SymbolicLtl.Proofs.Reachability.ForkJoin
import SymbolicLtl.Proofs.Model.Expansion
import SymbolicLtl.Proofs.Model.Build
import SymbolicLtl.Proofs.Model.Meaning
import SymbolicLtl.Proofs.Automaton.NeverClaim
import SymbolicLtl.Proofs.Verifier.Misuse
import SymbolicLtl.Proofs.Reachability.Outcomes
import SymbolicLtl.Proofs.Emptiness.Outcomes
import SymbolicLtl.Proofs.Emptiness.Shrinking
import SymbolicLtl.Proofs.Verifier.Configurations
import SymbolicLtl.Proofs.Diagram.Numbering
import SymbolicLtl.Proofs.Diagram.Session
import SymbolicLtl.Proofs.Formula.Grammar
import SymbolicLtl.Proofs.Emptiness.Safety
import SymbolicLtl.Proofs.Temporal.Grammar
import SymbolicLtl.Proofs.Temporal.NegatedProperty
import SymbolicLtl.Proofs.Automaton.Layout
import SymbolicLtl.Proofs.Formula.Spacing
import SymbolicLtl.Proofs.Automaton.Guards
import SymbolicLtl.Proofs.Automaton.Claims
import SymbolicLtl.Proofs.Json.Records
import SymbolicLtl.Proofs.Service.Messages
import SymbolicLtl.Proofs.Service.Faults
import SymbolicLtl.Proofs.Reachability.Layers
import SymbolicLtl.Proofs.Formula.Abbreviations
import SymbolicLtl.Proofs.Model.InitialStates
import SymbolicLtl.Proofs.Emptiness.FirstViolation
import SymbolicLtl.Proofs.Slicing.Ownership
import SymbolicLtl.Proofs.Model.VariableNames
import SymbolicLtl.Proofs.Automaton.Adjacency
import SymbolicLtl.Proofs.Automaton.Sessions
import SymbolicLtl.Proofs.Diagram.Import
import SymbolicLtl.Proofs.Formula.FirstFault
import SymbolicLtl.Proofs.Model.Counter
import SymbolicLtl.Proofs.Reachability.Counter
import SymbolicLtl.Proofs.Relation.Schedule
import SymbolicLtl.Proofs.Formula.Lossless

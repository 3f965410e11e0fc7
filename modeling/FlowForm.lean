import FlowForm.Numeral
import FlowForm.Punct
import FlowForm.Expr
import FlowForm.Item
import FlowForm.Listing.Error
import FlowForm.Listing.Token
import FlowForm.Listing.Parser
import FlowForm.Listing.Source
import FlowForm.Search
import FlowForm.Graph.Block
import FlowForm.Graph.Basic
import FlowForm.Graph.Validity
import FlowForm.Graph.Printer
import FlowForm.Graph.Build
import FlowForm.Dominance.Tree
import FlowForm.Dominance.Frontier
import FlowForm.Ssa.Counter
import FlowForm.Ssa.Placement
import FlowForm.Ssa.Renaming
import FlowForm.Ssa.Construction
import FlowForm.Ssa.Pruning
import FlowForm.Metrics
import FlowForm.Pipeline.Error
import FlowForm.Pipeline.State
import FlowForm.Pipeline.Pass
import FlowForm.Pipeline.Decompiler
import FlowForm.Pipeline.Batch
import FlowForm.CommandLine.Arguments
import FlowForm.CommandLine.Run
import FlowForm.Main
import FlowForm.Proofs.Listing.Spelling
import FlowForm.Proofs.Listing.Layout
import FlowForm.Proofs.Listing.Grammar
import FlowForm.Proofs.Listing.Precedence
import FlowForm.Proofs.Listing.Reading
import FlowForm.Proofs.Listing.Acceptance
import FlowForm.Proofs.Listing.RoundTrip
import FlowForm.Proofs.Listing.Stopping
import FlowForm.Proofs.Listing.Faults
import FlowForm.Proofs.Search
import FlowForm.Proofs.Recursion
import FlowForm.Proofs.Paths
import FlowForm.Proofs.Dominance.Forest
import FlowForm.Proofs.Dominance.Rounds
import FlowForm.Proofs.Dominance.Tree
import FlowForm.Proofs.Dominance.Frontier
import FlowForm.Proofs.Dominance.Preorder
import FlowForm.Proofs.Dominance.Correctness
import FlowForm.Proofs.Dominance.Iteration
import FlowForm.Proofs.Dominance.Tables
import FlowForm.Proofs.Ssa.Environments
import FlowForm.Proofs.Ssa.Events
import FlowForm.Proofs.Ssa.Renaming
import FlowForm.Proofs.Ssa.Operands
import FlowForm.Proofs.Ssa.Interleaving
import FlowForm.Proofs.Ssa.InPlace
import FlowForm.Proofs.Ssa.Placement
import FlowForm.Proofs.Ssa.Construction
import FlowForm.Proofs.Ssa.Reaching
import FlowForm.Proofs.Ssa.Liveness
import FlowForm.Proofs.Ssa.Correctness
import FlowForm.Proofs.Ssa.Supply
import FlowForm.Proofs.Ssa.Counts
import FlowForm.Proofs.Ssa.Atomicity
import FlowForm.Proofs.Ssa.Numbering
import FlowForm.Proofs.Ssa.Frame
import FlowForm.Proofs.Ssa.Pruning
import FlowForm.Proofs.Ssa.Repetition
import FlowForm.Proofs.Ssa.Statistics
import FlowForm.Proofs.Ssa.Agreement
import FlowForm.Proofs.Graph.Build
import FlowForm.Proofs.Graph.Validity
import FlowForm.Proofs.Graph.Flow
import FlowForm.Proofs.Graph.Insertion
import FlowForm.Proofs.Graph.Traversal
import FlowForm.Proofs.Graph.Partition
import FlowForm.Proofs.Graph.Ascending
import FlowForm.Proofs.Graph.Outcomes
import FlowForm.Proofs.Graph.Policies
import FlowForm.Proofs.Semantics.Machine
import FlowForm.Proofs.Semantics.Blocks
import FlowForm.Proofs.Semantics.Versions
import FlowForm.Proofs.Pipeline.Passes
import FlowForm.Proofs.Pipeline.Meaning
import FlowForm.Proofs.Pipeline.Staging
import FlowForm.Proofs.Pipeline.Progress
import FlowForm.Proofs.Pipeline.Success
import FlowForm.Proofs.Pipeline.Balance
import FlowForm.Proofs.Pipeline.Accounts
import FlowForm.Proofs.Pipeline.Prerequisites

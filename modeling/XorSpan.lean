import XorSpan.Bytes.Basic
import XorSpan.Bytes.Bits
import XorSpan.Bytes.Word
import XorSpan.Table
import XorSpan.Capacity
import XorSpan.Bytes.Sum
import XorSpan.Bytes.Hex
import XorSpan.Text.Blank
import XorSpan.Text.Lines
import XorSpan.Text.Utf8
import XorSpan.Text.Printable
import XorSpan.Text.Quoted
import XorSpan.Decimal.Shortest
import XorSpan.Decimal.Whole
import XorSpan.Hash.Blake3
import XorSpan.Random.Twister
import XorSpan.Frame
import XorSpan.Json.Basic
import XorSpan.Json.Canonical
import XorSpan.Json.Indented
import XorSpan.Json.Literal
import XorSpan.Datum
import XorSpan.Reading
import XorSpan.Parameters
import XorSpan.Receipt.Basic
import XorSpan.Receipt.Drift
import XorSpan.Fault
import XorSpan.Roll
import XorSpan.Reply
import XorSpan.Job
import XorSpan.Walk
import XorSpan.Record
import XorSpan.Sweep
import XorSpan.Solution
import XorSpan.Graph.Basic
import XorSpan.Graph.Expansion
import XorSpan.Graph.Mixed
import XorSpan.Graph.Draft
import XorSpan.Graph.Order
import XorSpan.Graph.Parity
import XorSpan.Graph.Reduction
import XorSpan.Graph.Chart
import XorSpan.Answer
import XorSpan.Request
import XorSpan.Random.Pool
import XorSpan.Text.Integer
import XorSpan.Disk
import XorSpan.HashList
import XorSpan.Cli.Arguments
import XorSpan.Cli.Run
import XorSpan.Main
import XorSpan.Proofs.Jobs
import XorSpan.Proofs.Sums
import XorSpan.Proofs.Span
import XorSpan.Proofs.Sweep.Step
import XorSpan.Proofs.Records
import XorSpan.Proofs.Sweep.Run
import XorSpan.Proofs.Find
import XorSpan.Proofs.Rank
import XorSpan.Proofs.Solvability
import XorSpan.Proofs.Graph.Arena
import XorSpan.Proofs.Graph.Paths
import XorSpan.Proofs.Graph.Order
import XorSpan.Proofs.Graph.Expansion
import XorSpan.Proofs.Graph.Parity
import XorSpan.Proofs.Graph.Reduction
import XorSpan.Proofs.HexOrder
import XorSpan.Proofs.Receipts
import XorSpan.Proofs.Answers
import XorSpan.Proofs.Graph.Unfolding
import XorSpan.Proofs.Cancellation
import XorSpan.Proofs.Endings
import XorSpan.Proofs.Graph.Usage
import XorSpan.Proofs.Graph.Census
import XorSpan.Proofs.Graph.Lines
import XorSpan.Proofs.Graph.Leaves
import XorSpan.Proofs.Json.Agreement
import XorSpan.Proofs.Json.Canonical
import XorSpan.Proofs.Texts
import XorSpan.Proofs.Digests
import XorSpan.Proofs.Encoding
import XorSpan.Proofs.Splitting
import XorSpan.Proofs.HashGrammar
import XorSpan.Proofs.HashLists
import XorSpan.Proofs.Quiet
import XorSpan.Proofs.Cli.Input
import XorSpan.Proofs.Cli.Words
import XorSpan.Proofs.Cli.Statuses
import XorSpan.Proofs.Cli.RoundTrip
import XorSpan.Proofs.Graph.Edits
import XorSpan.Proofs.Graph.Traversal
import XorSpan.Proofs.Interruption
import XorSpan.Proofs.Payloads
import XorSpan.Proofs.Conservation
import XorSpan.Proofs.Sweep.Zeros
import XorSpan.Proofs.Padding
import XorSpan.Proofs.Graph.Visits
import XorSpan.Proofs.Graph.Decoding
import XorSpan.Proofs.Graph.Scripts
import XorSpan.Proofs.Graph.Likeness
import XorSpan.Proofs.Graph.Presentation
import XorSpan.Proofs.Graph.Multiplicity
import XorSpan.Proofs.Framing
import XorSpan.Proofs.Normalization
import XorSpan.Proofs.Json.Comparison
import XorSpan.Proofs.Drifts
import XorSpan.Proofs.Requests
import XorSpan.Proofs.Bytewise
import XorSpan.Proofs.Bits
import XorSpan.Proofs.OddValues
import XorSpan.Proofs.HexTexts
import XorSpan.Proofs.Positions
import XorSpan.Proofs.Crowds

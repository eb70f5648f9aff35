import StackCode.Builder
import StackCode.Builder.Block
import StackCode.Builder.Op
import StackCode.Builtin
import StackCode.Builtin.Apply
import StackCode.Command
import StackCode.Command.Plan
import StackCode.Command.Session
import StackCode.Cursor
import StackCode.Digest
import StackCode.Disk
import StackCode.Fault
import StackCode.Frame
import StackCode.Image
import StackCode.Instruction
import StackCode.Json
import StackCode.Link
import StackCode.Listing
import StackCode.Listing.Reassembly
import StackCode.Machine
import StackCode.Machine.Action
import StackCode.Machine.Step
import StackCode.Machine.Trace
import StackCode.Main
import StackCode.Opcode
import StackCode.Printer
import StackCode.Proofs.Codec
import StackCode.Proofs.Image
import StackCode.Proofs.Listing.Lines
import StackCode.Proofs.Machine.Action
import StackCode.Proofs.Machine.ControlFlow
import StackCode.Proofs.Machine.Effect
import StackCode.Proofs.Machine.Faults
import StackCode.Proofs.Machine.Order
import StackCode.Proofs.Machine.Output
import StackCode.Proofs.Machine.Reachable
import StackCode.Proofs.Machine.Yields
import StackCode.Proofs.Result
import StackCode.Sink
import StackCode.Source.Assembly
import StackCode.Source.Statement
import StackCode.Text.Blank
import StackCode.Text.Decimal
import StackCode.Text.Hex
import StackCode.Text.Utf8
import StackCode.Value
import StackCode.Word
import StackCode.Proofs.Source.Statement
import StackCode.Proofs.Source.Draft
import StackCode.Proofs.Source.Meaning
import StackCode.Proofs.Text.Blank
import StackCode.Proofs.Text.Utf8
import StackCode.Proofs.Text.Numeral
import StackCode.Proofs.Listing.Written
import StackCode.Proofs.Listing.Reassembly
import StackCode.Proofs.Builder.Contents
import StackCode.Proofs.Builder.Relocation
import StackCode.Proofs.Builder.References
import StackCode.Proofs.Builder.Instructions
import StackCode.Proofs.Machine.Calls
import StackCode.Proofs.Machine.Slots
import StackCode.Proofs.Builder.Labels
import StackCode.Proofs.Machine.Fetch
import StackCode.Proofs.Machine.FrameGraph
import StackCode.Proofs.Source.Targets
import StackCode.Proofs.Builder.Targets
import StackCode.Proofs.Machine.Produced
import StackCode.Proofs.Format
import StackCode.Proofs.Machine.Parallel
import StackCode.Proofs.Machine.OtherData
import StackCode.Proofs.Disk
import StackCode.Proofs.Command.Arguments
import StackCode.Proofs.Command.Status
import StackCode.Proofs.Command.Session
import StackCode.Proofs.Machine.Failures
import StackCode.Proofs.Machine.Currying
import StackCode.Proofs.Builder.Records
import StackCode.Proofs.Listing.Decoding
import StackCode.Proofs.Builder.Interleaving
import StackCode.Proofs.Source.Mistakes
import StackCode.Proofs.Source.Layout
import StackCode.Proofs.Machine.Limit
import StackCode.Proofs.Builder.Sequences
import StackCode.Proofs.Printer.Names
import StackCode.Proofs.Printer.Reading
import StackCode.Proofs.Json
import StackCode.Proofs.Listing.Runs
import StackCode.Proofs.Builtin.Order
import StackCode.Proofs.Listing.Document
import StackCode.Proofs.Source.Fixups

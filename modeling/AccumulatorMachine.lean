import AccumulatorMachine.Program.Listing
import AccumulatorMachine.Machine.Ideal
import AccumulatorMachine.Machine.Checked
import AccumulatorMachine.Machine.InPlace
import AccumulatorMachine.Machine.Stream
import AccumulatorMachine.Source.Grammar
import AccumulatorMachine.Command.Assemble
import AccumulatorMachine.Command.Execute
import AccumulatorMachine.Main
import AccumulatorMachine.Proofs.Disassembly
import AccumulatorMachine.Proofs.Refinement
import AccumulatorMachine.Proofs.Failure
import AccumulatorMachine.Proofs.Feeding
import AccumulatorMachine.Proofs.Bounds
import AccumulatorMachine.Proofs.Limits
import AccumulatorMachine.Proofs.Guard
import AccumulatorMachine.Proofs.Binary
import AccumulatorMachine.Proofs.Aliases
import AccumulatorMachine.Proofs.Dump
import AccumulatorMachine.Proofs.JsonForms
import AccumulatorMachine.Proofs.Interpreter
import AccumulatorMachine.Proofs.Assembler
import AccumulatorMachine.Proofs.Addresses
import AccumulatorMachine.Proofs.Direct
import AccumulatorMachine.Proofs.Layout
import AccumulatorMachine.Proofs.Trace
import AccumulatorMachine.Proofs.FirstBadLine
import AccumulatorMachine.Proofs.UnknownWords
import AccumulatorMachine.Proofs.LastStore
import AccumulatorMachine.Proofs.LineErrors
import AccumulatorMachine.Proofs.SliceBounds
import AccumulatorMachine.Proofs.IteratedPower
import AccumulatorMachine.Proofs.Provenance
import AccumulatorMachine.Proofs.ListingColumns
import AccumulatorMachine.Proofs.StepCount
import AccumulatorMachine.Proofs.Residues
import AccumulatorMachine.Proofs.Tiling

import ForthAssembler.Main
import ForthAssembler.Memory.Lemmas
import ForthAssembler.Session.Operation
import ForthAssembler.Proofs.Assembler.Layout
import ForthAssembler.Proofs.Session.References
import ForthAssembler.Proofs.Assembler.Atomic
import ForthAssembler.Proofs.Control.Holes
import ForthAssembler.Proofs.Assembler.Opened
import ForthAssembler.Proofs.Assembler.Change
import ForthAssembler.Proofs.Assembler.Demand
import ForthAssembler.Proofs.Session.Attains
import ForthAssembler.Proofs.Session.Steady
import ForthAssembler.Proofs.Session.Coherent
import ForthAssembler.Proofs.Session.Rollback
import ForthAssembler.Proofs.Dictionary.Alike
import ForthAssembler.Proofs.Assembler.Blind
import ForthAssembler.Proofs.Session.Lockstep
import ForthAssembler.Proofs.Session.RoundTrip
import ForthAssembler.Proofs.Assembler.Loading
import ForthAssembler.Proofs.Dictionary.Linked
import ForthAssembler.Proofs.Session.Unfailing
import ForthAssembler.Proofs.Session.Bounds
import ForthAssembler.Proofs.Dictionary.Changes
import ForthAssembler.Proofs.Assembler.Patching
import ForthAssembler.Proofs.Session.Patching
import ForthAssembler.Proofs.Code.Codec
import ForthAssembler.Proofs.Assembler.Emission
import ForthAssembler.Proofs.Session.Ranges
import ForthAssembler.Proofs.Session.Completion
import ForthAssembler.Proofs.Session.Storing
import ForthAssembler.Proofs.Session.Saves
import ForthAssembler.Proofs.Session.Interpreting
import ForthAssembler.Proofs.Session.Sources
import ForthAssembler.Proofs.Session.Survivors
import ForthAssembler.Proofs.Code.Tiling
import ForthAssembler.Proofs.Text.Lines
import ForthAssembler.Proofs.Assembler.Quiet
import ForthAssembler.Proofs.Session.Fed
import ForthAssembler.Proofs.Session.LineBreaks
import ForthAssembler.Proofs.Session.Comments
import ForthAssembler.Proofs.Session.Courses
import ForthAssembler.Proofs.Session.Hiding
import ForthAssembler.Proofs.Token.Literals
import ForthAssembler.Proofs.Assembler.Texts
import ForthAssembler.Proofs.Assembler.Data
import ForthAssembler.Proofs.Session.Overflow
import ForthAssembler.Proofs.Session.Resetting
import ForthAssembler.Proofs.Assembler.Stacking
import ForthAssembler.Proofs.Session.Towers
import ForthAssembler.Proofs.Text.Case
import ForthAssembler.Proofs.Text.Rows
import ForthAssembler.Proofs.Token.Case
import ForthAssembler.Proofs.Text.Columns
import ForthAssembler.Proofs.Report.Dump
import ForthAssembler.Proofs.Dictionary.Walk
import ForthAssembler.Proofs.Dictionary.Descent
import ForthAssembler.Proofs.CommandLine.Size
import ForthAssembler.Proofs.CommandLine.Size

import Terrace.Application
import Terrace.Application.Failure
import Terrace.Application.Work
import Terrace.Code.Assembly
import Terrace.Code.Emitter
import Terrace.Code.Image
import Terrace.Code.Instruction
import Terrace.Code.Listing
import Terrace.Code.Opcode
import Terrace.Code.Operator
import Terrace.Compilation
import Terrace.Count
import Terrace.Files.Disk
import Terrace.Files.Script
import Terrace.Files.Tree
import Terrace.Link.Linked
import Terrace.Link.Manifest
import Terrace.Link.Routines
import Terrace.Machine.Fault
import Terrace.Machine.Host
import Terrace.Machine.Memory
import Terrace.Machine.Number
import Terrace.Machine.Run
import Terrace.Machine.State
import Terrace.Machine.Step
import Terrace.Main
import Terrace.Options
import Terrace.Options.Error
import Terrace.Options.Flag
import Terrace.Options.Help
import Terrace.Options.Settings
import Terrace.Proofs.Code.Assembled
import Terrace.Proofs.Code.Decoding
import Terrace.Proofs.Code.Emission
import Terrace.Proofs.Code.Layout
import Terrace.Proofs.Code.Occurrence
import Terrace.Proofs.Code.Operations
import Terrace.Proofs.Compilation.Activation
import Terrace.Proofs.Compilation.Image
import Terrace.Proofs.Compilation.Simulation
import Terrace.Proofs.Compilation.Soundness
import Terrace.Proofs.Machine.Calls
import Terrace.Proofs.Machine.Instructions
import Terrace.Proofs.Machine.Items
import Terrace.Proofs.Machine.Memory
import Terrace.Proofs.Machine.Number
import Terrace.Proofs.Machine.Session
import Terrace.Proofs.Machine.Sound
import Terrace.Proofs.Machine.Standing
import Terrace.Proofs.Source.Code
import Terrace.Proofs.Source.Contracts
import Terrace.Proofs.Source.Scoping
import Terrace.Proofs.Source.Meaning
import Terrace.Proofs.Source.Parsing
import Terrace.Proofs.Source.Typing
import Terrace.Proofs.Source.Variables
import Terrace.Source.Diagnostic
import Terrace.Source.Dump
import Terrace.Source.Excerpt
import Terrace.Source.Generation
import Terrace.Source.Inclusion
import Terrace.Source.Literal
import Terrace.Source.Parse
import Terrace.Source.Parse.Expression
import Terrace.Source.Parse.Program
import Terrace.Source.Parse.Statement
import Terrace.Source.Program
import Terrace.Source.Storage
import Terrace.Source.Symbol
import Terrace.Text.Blank
import Terrace.Text.Bytes
import Terrace.Text.Device
import Terrace.Text.LetterCase
import Terrace.Text.Lines
import Terrace.Text.Log
import Terrace.Text.Numeral
import Terrace.Text.Path
import Terrace.Text.Printable
import Terrace.Text.Quoted
import Terrace.Text.Utf8
import Terrace.Token
import Terrace.Token.Buffer
import Terrace.Token.Scanner
import Terrace.Proofs.Machine.Confinement
import Terrace.Proofs.Machine.Registers
import Terrace.Proofs.Machine.Crash
import Terrace.Proofs.Machine.Repetition
import Terrace.Proofs.Token.Supply
import Terrace.Proofs.Source.Progress
import Terrace.Proofs.Files.Names
import Terrace.Proofs.Source.Inclusion
import Terrace.Proofs.Code.Fitting
import Terrace.Proofs.Code.Relocation
import Terrace.Proofs.Compilation.Generation
import Terrace.Proofs.Source.Interpretation
import Terrace.Proofs.Compilation.Preservation
import Terrace.Proofs.Code.Reading
import Terrace.Proofs.Machine.Successor
import Terrace.Proofs.Token.Strings
import Terrace.Proofs.Token.Rows
import Terrace.Proofs.Token.Outline
import Terrace.Proofs.Token.Places
import Terrace.Proofs.Token.Blocks
import Terrace.Proofs.Token.Shape
import Terrace.Proofs.Token.Stream
import Terrace.Proofs.Source.Tracking
import Terrace.Proofs.Source.Lockstep
import Terrace.Proofs.Source.Agreement
import Terrace.Proofs.Source.Replacement
import Terrace.Proofs.Source.Splicing
import Terrace.Proofs.Compilation.Restyling
import Terrace.Proofs.Compilation.Splicing
import Terrace.Proofs.Source.Activity
import Terrace.Proofs.Source.Termination
import Terrace.Proofs.Compilation.Allocation
import Terrace.Proofs.Source.Padding
import Terrace.Proofs.Compilation.Discarding
import Terrace.Proofs.Source.Location
import Terrace.Proofs.Compilation.Excerpts
import Terrace.Proofs.Code.Renumbering
import Terrace.Proofs.Compilation.Addresses
import Terrace.Proofs.Source.Building
import Terrace.Proofs.Source.Arrays
import Terrace.Proofs.Token.Cover
import Terrace.Proofs.Code.Shortest
import Terrace.Proofs.Code.Rollback
import Terrace.Proofs.Source.Formulas
import Terrace.Proofs.Compilation.Evaluation
import Terrace.Proofs.Source.Encoding
import Terrace.Proofs.Token.Quoting
import Terrace.Proofs.Token.Lookahead
import Terrace.Proofs.Compilation.SinglePass
import Terrace.Proofs.Compilation.Speculation
import Terrace.Proofs.Compilation.Bindings
import Terrace.Proofs.Compilation.Footing
import Terrace.Proofs.Compilation.Watching
import Terrace.Proofs.Machine.Arithmetic
import Terrace.Proofs.Source.Hexadecimal
import Terrace.Proofs.Link.Readback
import Terrace.Proofs.Machine.Elements
import Terrace.Proofs.Compilation.Accessing
import Terrace.Proofs.Compilation.Following
import Terrace.Proofs.Compilation.Calling
import Terrace.Proofs.Compilation.Indexing
import Terrace.Proofs.Code.Partition
import Terrace.Proofs.Options.CommandLine
import Terrace.Proofs.Options.Ordering
import Terrace.Proofs.Options.Values
import Terrace.Proofs.Options.Timeout
import Terrace.Proofs.Options.Precedence
import Terrace.Proofs.Machine.Limits
import Terrace.Proofs.Link.Words
import Terrace.Proofs.Link.Manifests
import Terrace.Proofs.Link.Sections
import Terrace.Proofs.Compilation.Margins
import Terrace.Proofs.Machine.Comparison
import Terrace.Proofs.Machine.ByteForms
import Terrace.Proofs.Token.Transparency

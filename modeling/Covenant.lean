import Covenant.Bytes
import Covenant.CommandLine
import Covenant.CommandLine.Arguments
import Covenant.Compile
import Covenant.Compile.Error
import Covenant.Compile.Expression
import Covenant.Compile.Scope
import Covenant.Compile.Statement
import Covenant.Contract
import Covenant.Contract.Cursor
import Covenant.Contract.Outline
import Covenant.Contract.Parse
import Covenant.Disk
import Covenant.Failure
import Covenant.Instruction
import Covenant.Json
import Covenant.Json.Read
import Covenant.Json.Write
import Covenant.Machine
import Covenant.Machine.Fault
import Covenant.Machine.Step
import Covenant.Main
import Covenant.Operator
import Covenant.Outline
import Covenant.Path
import Covenant.Program
import Covenant.Program.Binary
import Covenant.Program.Decode
import Covenant.Program.Json
import Covenant.Program.Listing
import Covenant.Proofs.Compile.Agreement
import Covenant.Proofs.Compile.Balance
import Covenant.Proofs.Compile.Correctness
import Covenant.Proofs.Compile.Layout
import Covenant.Proofs.Compile.Mapping
import Covenant.Proofs.Compile.Precedence
import Covenant.Proofs.Compile.Simulation
import Covenant.Proofs.Contract.Names
import Covenant.Proofs.Evaluation
import Covenant.Proofs.Machine.Leads
import Covenant.Proofs.Machine.Safety
import Covenant.Proofs.Machine.Turn
import Covenant.Proofs.Program.Binary
import Covenant.Proofs.Table
import Covenant.Proofs.Wire
import Covenant.Proofs.Word
import Covenant.Sha256
import Covenant.Slots
import Covenant.Store
import Covenant.Store.File
import Covenant.Store.Pair
import Covenant.Table
import Covenant.Text.Blank
import Covenant.Text.Decimal
import Covenant.Text.Hex
import Covenant.Text.Printable
import Covenant.Text.Quoted
import Covenant.Token
import Covenant.Token.Dump
import Covenant.Token.Scan
import Covenant.Value
import Covenant.Wire
import Covenant.Word
import Covenant.Word.Arithmetic
import Covenant.Word.Encoding
import Covenant.Proofs.Json
import Covenant.Proofs.Machine.AccountRoot
import Covenant.Proofs.Machine.Accounts
import Covenant.Proofs.Program.Json
import Covenant.Proofs.Disk
import Covenant.Proofs.Ledger
import Covenant.Proofs.Machine.Lockstep
import Covenant.Proofs.StateDirectory
import Covenant.Proofs.Machine.Isolation
import Covenant.Proofs.Compile.Generator
import Covenant.Proofs.Compile.Independence
import Covenant.Proofs.Contract.Grammar
import Covenant.Proofs.Contract.Soundness
import Covenant.Proofs.Contract.Completeness
import Covenant.Proofs.Contract.EndOfInput
import Covenant.Proofs.Contract.Exactness
import Covenant.Proofs.Compile.WellFormed
import Covenant.Proofs.Compile.Acceptance
import Covenant.Proofs.Store.Sessions
import Covenant.Proofs.Compile.Splitting
import Covenant.Proofs.Compile.Renaming
import Covenant.Proofs.Compile.Entries
import Covenant.Proofs.Word.Arithmetic
import Covenant.Proofs.Machine.Moves
import Covenant.Proofs.Machine.Limits
import Covenant.Proofs.Machine.Shapes
import Covenant.Proofs.Compile.StackNeed
import Covenant.Proofs.Program.Listing
import Covenant.Proofs.Store.Root
import Covenant.Proofs.Token.Lexeme
import Covenant.Proofs.Token.Split
import Covenant.Proofs.Contract.Display
import Covenant.Proofs.Contract.Prompt
import Covenant.Proofs.Contract.FirstFault
import Covenant.Proofs.Machine.Writes
import Covenant.Proofs.Compile.Initialization
import Covenant.Proofs.Machine.Deployment
import Covenant.Proofs.Machine.Refusals
import Covenant.Proofs.Machine.Footprint
import Covenant.Proofs.Disk.Places
import Covenant.Proofs.Store.Interruption
import Covenant.Proofs.Store.Crash
import Covenant.Proofs.Word.Encoders
import Covenant.Proofs.Word.Description
import Covenant.Proofs.Slots
import Covenant.Proofs.Machine.Effects
import Covenant.Proofs.Word.Texts
import Covenant.Proofs.Machine.Memory
import Covenant.Proofs.Compile.MemoryKeys

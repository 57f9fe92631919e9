import Scriptlet.Builtin
import Scriptlet.Builtin.Call
import Scriptlet.Bytecode
import Scriptlet.Bytecode.Decode
import Scriptlet.Bytecode.Instruction
import Scriptlet.Bytecode.Listing
import Scriptlet.Bytecode.Op
import Scriptlet.Codegen.Buffer
import Scriptlet.Codegen.Compile
import Scriptlet.Codegen.Error
import Scriptlet.Codegen.State
import Scriptlet.CommandLine
import Scriptlet.Console
import Scriptlet.Evaluation.Environment
import Scriptlet.Evaluation.Error
import Scriptlet.Evaluation.Evaluate
import Scriptlet.Evaluation.Operate
import Scriptlet.Host
import Scriptlet.Machine.Error
import Scriptlet.Machine.Operate
import Scriptlet.Machine.State
import Scriptlet.Machine.Step
import Scriptlet.Main
import Scriptlet.Nest
import Scriptlet.Proofs.Abreast
import Scriptlet.Proofs.Agreement
import Scriptlet.Proofs.Allowance
import Scriptlet.Proofs.AppendOnly
import Scriptlet.Proofs.Assembly
import Scriptlet.Proofs.Batches
import Scriptlet.Proofs.Bindings
import Scriptlet.Proofs.Blocks
import Scriptlet.Proofs.Calls
import Scriptlet.Proofs.Captures
import Scriptlet.Proofs.Completeness
import Scriptlet.Proofs.Confinement
import Scriptlet.Proofs.Consistency
import Scriptlet.Proofs.Correspondence
import Scriptlet.Proofs.DeadSlots
import Scriptlet.Proofs.Division
import Scriptlet.Proofs.Effects
import Scriptlet.Proofs.Enclosure
import Scriptlet.Proofs.Environments
import Scriptlet.Proofs.Execution
import Scriptlet.Proofs.Fetching
import Scriptlet.Proofs.Flow
import Scriptlet.Proofs.Footprint
import Scriptlet.Proofs.Fragment
import Scriptlet.Proofs.Halting
import Scriptlet.Proofs.Hereditary
import Scriptlet.Proofs.Inversion
import Scriptlet.Proofs.Invocation
import Scriptlet.Proofs.LastInstruction
import Scriptlet.Proofs.Layout
import Scriptlet.Proofs.Lexing
import Scriptlet.Proofs.Lockstep
import Scriptlet.Proofs.Marks
import Scriptlet.Proofs.Moves
import Scriptlet.Proofs.Occurrences
import Scriptlet.Proofs.OperandOrder
import Scriptlet.Proofs.Operands
import Scriptlet.Proofs.Operators
import Scriptlet.Proofs.Orderly
import Scriptlet.Proofs.OwnEnvironment
import Scriptlet.Proofs.Pieces
import Scriptlet.Proofs.Printing
import Scriptlet.Proofs.Progress
import Scriptlet.Proofs.Reachable
import Scriptlet.Proofs.Reading
import Scriptlet.Proofs.Records
import Scriptlet.Proofs.Relocation
import Scriptlet.Proofs.Renaming
import Scriptlet.Proofs.Resolution
import Scriptlet.Proofs.Rollback
import Scriptlet.Proofs.Safety
import Scriptlet.Proofs.Scoping
import Scriptlet.Proofs.Simulation
import Scriptlet.Proofs.SoundValues
import Scriptlet.Proofs.Spelling
import Scriptlet.Proofs.StackContents
import Scriptlet.Proofs.StepOutcomes
import Scriptlet.Proofs.Stores
import Scriptlet.Proofs.Streams
import Scriptlet.Proofs.Tandem
import Scriptlet.Proofs.TopLevel
import Scriptlet.Proofs.WellFormed
import Scriptlet.Proofs.Writable
import Scriptlet.Report
import Scriptlet.Scope.Chain
import Scriptlet.Scope.Symbol
import Scriptlet.Session
import Scriptlet.Text.Blank
import Scriptlet.Text.Decimal
import Scriptlet.Token
import Scriptlet.Token.Lexer
import Scriptlet.Tree
import Scriptlet.Tree.Parser
import Scriptlet.Tree.Precedence
import Scriptlet.Tree.Source
import Scriptlet.Tree.Text
import Scriptlet.Value
import Scriptlet.Value.FloorDiv
import Scriptlet.Value.Hash
import Scriptlet.Value.Identity
import Scriptlet.Value.Text

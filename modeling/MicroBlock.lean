import MicroBlock.Archive.Basic
import MicroBlock.Archive.Field
import MicroBlock.Archive.Records
import MicroBlock.Archive.Shards
import MicroBlock.Bank
import MicroBlock.Bytecode.Instr
import MicroBlock.Bytecode.Opcode
import MicroBlock.Bytecode.Operand
import MicroBlock.Command.Basic
import MicroBlock.Command.Options
import MicroBlock.Compile.Compiler
import MicroBlock.Compile.Emission
import MicroBlock.Compile.Failure
import MicroBlock.Compile.Pool
import MicroBlock.Compile.Target
import MicroBlock.Compile.Unit
import MicroBlock.Container.Codec
import MicroBlock.Container.Builder
import MicroBlock.Container.Listing
import MicroBlock.Container.Module
import MicroBlock.Cpu.Descriptor
import MicroBlock.Cpu.Element
import MicroBlock.Cpu.Fault
import MicroBlock.Cpu.Kind
import MicroBlock.Cpu.Machine
import MicroBlock.Cpu.Memory
import MicroBlock.Cpu.Mode
import MicroBlock.Cpu.Ports
import MicroBlock.Cpu.Segment
import MicroBlock.Cpu.Value
import MicroBlock.Cpu.Width
import MicroBlock.Dataflow.Graph
import MicroBlock.Dataflow.Rollback
import MicroBlock.Dataflow.Slots
import MicroBlock.Digest.Blake2b
import MicroBlock.Engine
import MicroBlock.Fragment.Basic
import MicroBlock.Fragment.Eval
import MicroBlock.Fragment.Name
import MicroBlock.Fragment.Table
import MicroBlock.Helper.Arithmetic
import MicroBlock.Helper.Basic
import MicroBlock.Helper.Builtin
import MicroBlock.Helper.Flags
import MicroBlock.Interpreter
import MicroBlock.Listing
import MicroBlock.Loader.Basic
import MicroBlock.Loader.Execution
import MicroBlock.Loader.Routine
import MicroBlock.Lowering
import MicroBlock.Main
import MicroBlock.Message
import MicroBlock.Microcode.Assembly
import MicroBlock.Microcode.Cursor
import MicroBlock.Microcode.Op
import MicroBlock.Microcode.Stream
import MicroBlock.Numeral
import MicroBlock.Report
import MicroBlock.Sorting
import MicroBlock.Text.Blank
import MicroBlock.Text.ByteString
import MicroBlock.Text.Case
import MicroBlock.Text.Hex
import MicroBlock.Text.Label
import MicroBlock.Text.Printable
import MicroBlock.Text.Quoted
import MicroBlock.Yaml.Block
import MicroBlock.Yaml.Flow
import MicroBlock.Yaml.Node
import MicroBlock.Proofs.Builtins
import MicroBlock.Proofs.Emission
import MicroBlock.Proofs.Endings
import MicroBlock.Proofs.Operands
import MicroBlock.Proofs.Refinement
import MicroBlock.Proofs.Precision
import MicroBlock.Proofs.Rejections
import MicroBlock.Proofs.Seams
import MicroBlock.Proofs.Names
import MicroBlock.Proofs.Engines
import MicroBlock.Proofs.Termination
import MicroBlock.Proofs.Delivery
import MicroBlock.Proofs.Privilege
import MicroBlock.Proofs.Segments
import MicroBlock.Proofs.Sharing
import MicroBlock.Proofs.SystemState
import MicroBlock.Proofs.Demand
import MicroBlock.Proofs.CodeSize
import MicroBlock.Proofs.ByteField
import MicroBlock.Proofs.Shards
import MicroBlock.Proofs.Archives
import MicroBlock.Proofs.ArchiveHistory
import MicroBlock.Proofs.Restoring
import MicroBlock.Proofs.Allocation
import MicroBlock.Proofs.Coverage
import MicroBlock.Proofs.Guarding
import MicroBlock.Proofs.Rollbacks
import MicroBlock.Proofs.Computations
import MicroBlock.Proofs.Folding
import MicroBlock.Proofs.ArithmeticFlags
import MicroBlock.Proofs.WideArithmetic
import MicroBlock.Proofs.StackOps
import MicroBlock.Proofs.RegisterParts
import MicroBlock.Proofs.Drawing
import MicroBlock.Proofs.Signatures
import MicroBlock.Proofs.Typing
import MicroBlock.Proofs.BlockListings
import MicroBlock.Proofs.Submissions
import MicroBlock.Proofs.FaultSources
import MicroBlock.Proofs.Presets
import MicroBlock.Proofs.CodeBuffers
import MicroBlock.Proofs.Interning

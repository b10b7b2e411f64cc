import GscAssembler.Bytes.Align
import GscAssembler.Bytes.Buffer
import GscAssembler.Bytes.Chunk
import GscAssembler.Bytes.Crc32
import GscAssembler.Bytes.HexDump
import GscAssembler.Bytes.Order
import GscAssembler.Code.Builtin
import GscAssembler.Code.Chain
import GscAssembler.Code.Constant
import GscAssembler.Code.Context
import GscAssembler.Code.Encoding
import GscAssembler.Code.Function
import GscAssembler.Code.Instruction
import GscAssembler.Code.Layout
import GscAssembler.Code.Opcode
import GscAssembler.Console.Arguments
import GscAssembler.Console.Command
import GscAssembler.Console.FileTree
import GscAssembler.Console.Files
import GscAssembler.Console.Listing
import GscAssembler.Console.Run
import GscAssembler.Error
import GscAssembler.Image.Assemble
import GscAssembler.Image.Header
import GscAssembler.Image.Section
import GscAssembler.Json.Printer
import GscAssembler.Json.Reader
import GscAssembler.Json.Token
import GscAssembler.Json.Value
import GscAssembler.Lowering.Call
import GscAssembler.Lowering.Control
import GscAssembler.Lowering.Expression
import GscAssembler.Lowering.Fragment
import GscAssembler.Lowering.Locals
import GscAssembler.Lowering.Node
import GscAssembler.Lowering.Script
import GscAssembler.Lowering.State
import GscAssembler.Lowering.Statement
import GscAssembler.Main
import GscAssembler.Name.Hash
import GscAssembler.Name.Literal
import GscAssembler.Name.Registry
import GscAssembler.Number.Binary
import GscAssembler.Number.Decimal
import GscAssembler.Number.Shortest
import GscAssembler.Reference.Table
import GscAssembler.Reference.Tables
import GscAssembler.Script
import GscAssembler.SyntaxTree.Node
import GscAssembler.SyntaxTree.Reader
import GscAssembler.Target
import GscAssembler.Text.Ascii
import GscAssembler.Text.Hex
import GscAssembler.Text.Lines
import GscAssembler.Workbench
import GscAssembler.Proofs.Bytes.Buffer
import GscAssembler.Proofs.Code.Encoding
import GscAssembler.Proofs.Code.GrowingChain
import GscAssembler.Proofs.Code.Layout
import GscAssembler.Proofs.Reference.Rows
import GscAssembler.Proofs.Control.Program
import GscAssembler.Proofs.Control.Sketch
import GscAssembler.Proofs.Image.Functions
import GscAssembler.Proofs.Image.Sections
import GscAssembler.Proofs.Code.Jumps
import GscAssembler.Proofs.Code.Shape
import GscAssembler.Proofs.Control.Built
import GscAssembler.Proofs.Image.Exports
import GscAssembler.Proofs.Image.Loader
import GscAssembler.Proofs.Image.SelfDescribing
import GscAssembler.Proofs.Image.Regions
import GscAssembler.Proofs.Script.Landing
import GscAssembler.Proofs.Script.Limits
import GscAssembler.Proofs.Code.Decoder
import GscAssembler.Proofs.Code.Relocation
import GscAssembler.Proofs.Control.Alike
import GscAssembler.Proofs.Script.Independence
import GscAssembler.Proofs.Code.Sweep
import GscAssembler.Proofs.Script.Decoding
import GscAssembler.Proofs.Code.ChainSlots
import GscAssembler.Proofs.Code.LastingKeys
import GscAssembler.Proofs.Control.Execution
import GscAssembler.Proofs.Lowering.Termination
import GscAssembler.Proofs.Name.Remembered
import GscAssembler.Proofs.Script.Names
import GscAssembler.Proofs.Script.Sidecar
import GscAssembler.Proofs.Script.Endianness
import GscAssembler.Proofs.Checked.Lowering
import GscAssembler.Proofs.Code.DanglingJumps
import GscAssembler.Proofs.Code.LocalIndices
import GscAssembler.Proofs.Code.LoopJumps
import GscAssembler.Proofs.Lowering.SyntheticVariables
import GscAssembler.Proofs.Lowering.Parameters
import GscAssembler.Proofs.Lowering.Switches
import GscAssembler.Proofs.Number.Spelling
import GscAssembler.Proofs.Script.IntegerLiterals
import GscAssembler.Proofs.Script.Strings
import GscAssembler.Proofs.Reference.Operations
import GscAssembler.Proofs.Name.Separation
import GscAssembler.Proofs.Lowering.MacroExpansion

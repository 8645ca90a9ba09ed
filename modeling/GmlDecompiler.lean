import GmlDecompiler.Build
import GmlDecompiler.CommandLine
import GmlDecompiler.Config
import GmlDecompiler.Double.Basic
import GmlDecompiler.Double.Shortest
import GmlDecompiler.EnumDef
import GmlDecompiler.Fault
import GmlDecompiler.FunctionNames
import GmlDecompiler.Instruction.Basic
import GmlDecompiler.Instruction.Format
import GmlDecompiler.Json.Basic
import GmlDecompiler.Json.Numeral
import GmlDecompiler.Json.Parser
import GmlDecompiler.Json.Reader
import GmlDecompiler.Layout.Source
import GmlDecompiler.Layout.Step
import GmlDecompiler.Machine
import GmlDecompiler.Main
import GmlDecompiler.Program
import GmlDecompiler.Settings
import GmlDecompiler.Skeleton.Basic
import GmlDecompiler.Skeleton.Format
import GmlDecompiler.Tidy
import GmlDecompiler.Tree.Basic
import GmlDecompiler.Tree.Equality
import GmlDecompiler.Tree.Expr
import GmlDecompiler.Tree.Fragment
import GmlDecompiler.Vocabulary
import GmlDecompiler.Proofs.Codegen.Replay
import GmlDecompiler.Proofs.Codegen.RoundTrip
import GmlDecompiler.Proofs.Layout.Grammar
import GmlDecompiler.Proofs.Layout.Operators
import GmlDecompiler.Proofs.Naming.Arguments
import GmlDecompiler.Proofs.Naming.Built
import GmlDecompiler.Proofs.Naming.Parameters
import GmlDecompiler.Proofs.Naming.Decompiled
import GmlDecompiler.Proofs.Tidying.Frame
import GmlDecompiler.Proofs.Building.Instructions
import GmlDecompiler.Proofs.Building.Locality
import GmlDecompiler.Proofs.Faults
import GmlDecompiler.Proofs.Building.Declarations
import GmlDecompiler.Proofs.Building.Ledger
import GmlDecompiler.Proofs.Building.Stack
import GmlDecompiler.Proofs.Building.Placement
import GmlDecompiler.Proofs.Building.Addresses
import GmlDecompiler.Proofs.Building.Functions
import GmlDecompiler.Proofs.Building.Jumps
import GmlDecompiler.Proofs.Tidying.Jumps
import GmlDecompiler.Proofs.Building.Locals
import GmlDecompiler.Proofs.Layout.Ink
import GmlDecompiler.Proofs.Layout.Outline
import GmlDecompiler.Proofs.Tidying.Outline
import GmlDecompiler.Proofs.FunctionNames.Scan
import GmlDecompiler.Proofs.FunctionNames.Binding
import GmlDecompiler.Proofs.Execution.Conduct
import GmlDecompiler.Proofs.Execution.Staging
import GmlDecompiler.Proofs.Naming.Elements
import GmlDecompiler.Proofs.Execution.Conditions
import GmlDecompiler.Proofs.Execution.Quiet
import GmlDecompiler.Proofs.Codegen.Addressing
import GmlDecompiler.Proofs.Codegen.Postorder
import GmlDecompiler.Proofs.Layout.Chains
import GmlDecompiler.Proofs.Layout.Owners
import GmlDecompiler.Proofs.Naming.Defaults
import GmlDecompiler.Proofs.Duplication
import GmlDecompiler.Proofs.Discarding
import GmlDecompiler.Proofs.Tidying.Noting
import GmlDecompiler.Proofs.Tidying.Correspondence
import GmlDecompiler.Proofs.Tidying.Settling
import GmlDecompiler.Proofs.Tidying.Meaning
import GmlDecompiler.Proofs.Tidying.Literals
import GmlDecompiler.Proofs.Layout.Enums
import GmlDecompiler.Proofs.Tidying.Bindings
import GmlDecompiler.Proofs.Building.Order
import GmlDecompiler.Proofs.Naming.Highest
import GmlDecompiler.Proofs.Layout.Balance
import GmlDecompiler.Proofs.Naming.Stability
import GmlDecompiler.Proofs.Layout.Negation
import GmlDecompiler.Proofs.Json.RoundTrip
import GmlDecompiler.Proofs.Layout.Quotation

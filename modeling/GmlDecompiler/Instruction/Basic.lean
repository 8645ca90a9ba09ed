import GmlDecompiler.Json.Reader

/-!
# Instructions of the stack machine

The instruction set of the virtual machine, as plain data. An instruction carries every operand
an opcode could need; operands it does not need keep the values of `Instruction.plain`.
-/

namespace GmlDecompiler

/-- What an instruction does. -/
inductive Opcode where
  | convert
  | multiply
  | divide
  | remainder
  | modulo
  | add
  | subtract
  | and
  | or
  | xor
  | negate
  | not
  | shiftLeft
  | shiftRight
  | compare
  | pop
  | duplicate
  | ret
  | exit
  | popDelete
  | branch
  | branchTrue
  | branchFalse
  | pushContext
  | popContext
  | push
  | pushLocal
  | pushGlobal
  | pushBuiltin
  | pushImmediate
  | call
  | callValue
  | extended
  deriving DecidableEq

/-- What an `extended` instruction does. -/
inductive ExtOp where
  | setArrayOwner
  | pushArrayFinal
  | popArrayFinal
  | pushArrayContainer
  | setStaticInitialized
  | hasStaticInitialized
  | copyOnWrite
  | pushReference
  deriving DecidableEq

/-- The type of a slot of the operand stack. -/
inductive SlotType where
  | double
  | int32
  | int64
  | boolean
  | variable
  | string
  | int16
  deriving DecidableEq

/-- The bytes a slot takes. -/
def SlotType.size : SlotType → Nat
  | .double | .int64 => 8
  | .int32 | .boolean | .string | .int16 => 4
  | .variable => 16

/-- The relation a comparison tests. -/
inductive Comparison where
  | less
  | lessEqual
  | equal
  | notEqual
  | greaterEqual
  | greater
  deriving DecidableEq

/-- The operator of a comparison. -/
def Comparison.symbol : Comparison → String
  | .less => "<"
  | .lessEqual => "<="
  | .equal => "=="
  | .notEqual => "!="
  | .greaterEqual => ">="
  | .greater => ">"

/-- The instance a variable belongs to: a keyword, or an object by its index. -/
inductive Instance where
  | undefined
  | own
  | other
  | all
  | noone
  | global
  | builtin
  | locals
  | stackTop
  | argument
  | static
  | object (index : Int16)
  deriving DecidableEq

namespace Instance

/-- The instance a raw word denotes. Words that are not negative are object indices. -/
def ofRaw (raw : Int16) : Instance :=
  if 0 ≤ raw then .object raw
  else if raw = -1 then .own
  else if raw = -2 then .other
  else if raw = -3 then .all
  else if raw = -4 then .noone
  else if raw = -5 then .global
  else if raw = -6 then .builtin
  else if raw = -7 then .locals
  else if raw = -9 then .stackTop
  else if raw = -15 then .argument
  else if raw = -16 then .static
  else .undefined

/-- The raw word of an instance. -/
def raw : Instance → Int16
  | .undefined => 0
  | .own => -1
  | .other => -2
  | .all => -3
  | .noone => -4
  | .global => -5
  | .builtin => -6
  | .locals => -7
  | .stackTop => -9
  | .argument => -15
  | .static => -16
  | .object index => index

/-- An instance as source text. -/
def text : Instance → String
  | .undefined => "undefined"
  | .own => "self"
  | .other => "other"
  | .all => "all"
  | .noone => "noone"
  | .global => "global"
  | .builtin => "builtin"
  | .locals => "local"
  | .stackTop => "stacktop"
  | .argument => "argument"
  | .static => "static"
  | .object index => toString index.toInt

end Instance

/-- How an access finds its variable. -/
inductive Reference where
  | array
  | stackTop
  | normal
  | ofInstance
  | multiPush
  | multiPushPop
  deriving DecidableEq

/-- A variable and the instance it is declared for. -/
structure VarRef where
  /-- The variable's name. -/
  name : String
  /-- The instance it is declared for. -/
  owner : Instance := .own
  deriving DecidableEq

/-- A literal operand. -/
inductive Literal where
  | int16 (value : Int16)
  | int32 (value : Int32)
  | int64 (value : Int64)
  | double (value : Double)
  | boolean (value : Bool)
  | string (value : String)
  deriving DecidableEq

/-- One instruction with its operands. -/
structure Instruction where
  /-- Where the instruction stands in the code. -/
  address : UInt32 := 0
  /-- What it does. -/
  opcode : Opcode
  /-- What it does, if it is `extended`. -/
  extOp : Option ExtOp := none
  /-- The relation it tests, if it is a comparison. -/
  comparison : Option Comparison := none
  /-- The type of its first operand. -/
  type1 : SlotType := .variable
  /-- The type of its second operand. -/
  type2 : SlotType := .variable
  /-- The instance of a variable access. -/
  owner : Instance := .own
  /-- How a variable access finds its variable. -/
  reference : Reference := .normal
  /-- The variable it accesses. -/
  target : Option VarRef := none
  /-- The name of the function it calls or pushes. -/
  function : Option String := none
  /-- Its literal operand. -/
  literal : Option Literal := none
  /-- The number of arguments of a call. -/
  argCount : UInt16 := 0
  /-- The extent of a duplication, or of the upper region of a swap. -/
  dupSize : UInt8 := 0
  /-- The extent of the lower region of a swap; zero for a duplication. -/
  swapSize : UInt8 := 0
  deriving DecidableEq

/-! Names the machine gives a meaning to. -/
namespace Reserved

/-- Instantiates a constructor. -/
def newObject : String := "@@NewGMLObject@@"

/-- The owner of a constructor. -/
def nullObject : String := "@@NullObject@@"

/-- Binds a function to an owner. -/
def method : String := "method"

/-- Copies a parent's statics onto a constructor. -/
def copyStatic : String := "@@CopyStatic@@"

/-- Occurs in the code name of every struct literal. -/
def structMark : String := "___struct___"

/-- The local variable the compiler uses for itself. -/
def temporary : String := "$$$$temp$$$$"

/-- The factor of the first index of a two-dimensional array access. -/
def rowStride : Int32 := 32000

end Reserved

namespace Literal

/-- The literal as a 16-bit integer, high bits dropped; zero for numbers and strings. -/
def toInt16 : Literal → Int16
  | .int16 value => value
  | .int32 value => value.toInt16
  | .int64 value => value.toInt16
  | .boolean value => if value then 1 else 0
  | .double _ | .string _ => 0

/-- The literal as a 32-bit integer, high bits dropped; zero for numbers and strings. -/
def toInt32 : Literal → Int32
  | .int16 value => value.toInt32
  | .int32 value => value
  | .int64 value => value.toInt32
  | .boolean value => if value then 1 else 0
  | .double _ | .string _ => 0

/-- The literal as a 64-bit integer; zero for numbers and strings. -/
def toInt64 : Literal → Int64
  | .int16 value => value.toInt64
  | .int32 value => value.toInt64
  | .int64 value => value
  | .boolean value => if value then 1 else 0
  | .double _ | .string _ => 0

/-- The literal as a number; zero for truth values and strings. -/
def toDouble : Literal → Double
  | .double value => value
  | .int16 value => .ofInt value.toInt
  | .int32 value => .ofInt value.toInt
  | .int64 value => .ofInt value.toInt
  | .boolean _ | .string _ => .zero false

/-- The literal as a string; empty for anything else. -/
def toText : Literal → String
  | .string value => value
  | _ => ""

end Literal

namespace Instruction

/-- An instruction without operands. -/
def plain (opcode : Opcode) : Instruction where
  opcode := opcode

/-- The instruction moved to an address. -/
def atAddress (i : Instruction) (address : UInt32) : Instruction :=
  { i with address := address }

/-- The instruction with other operand types. -/
def withTypes (i : Instruction) (type1 type2 : SlotType) : Instruction :=
  { i with type1 := type1, type2 := type2 }

/-- The instruction with a literal. -/
def withLiteral (i : Instruction) (literal : Literal) : Instruction :=
  { i with literal := some literal }

/-- The instruction with a variable. -/
def withTarget (i : Instruction) (target : VarRef) (reference : Reference) : Instruction :=
  { i with target := some target, reference := reference }

/-- The instruction with another instance. -/
def withOwner (i : Instruction) (owner : Instance) : Instruction :=
  { i with owner := owner }

/-- The instruction with a function. -/
def withFunction (i : Instruction) (function : String) (argCount : UInt16) : Instruction :=
  { i with function := some function, argCount := argCount }

/-- A comparison. -/
def compare (comparison : Comparison) (type1 type2 : SlotType) : Instruction :=
  { (plain .compare).withTypes type1 type2 with comparison := some comparison }

/-- A duplication, or a swap if the second extent is not zero. -/
def duplicate (type : SlotType) (dupSize swapSize : UInt8) : Instruction :=
  { (plain .duplicate).withTypes type type with dupSize := dupSize, swapSize := swapSize }

/-- An extended instruction. -/
def extended (extOp : ExtOp) : Instruction :=
  { plain .extended with extOp := some extOp }

/-- A push of a 16-bit literal. -/
def pushImmediate (value : Int16) : Instruction :=
  ((plain .pushImmediate).withTypes .int16 .int16).withLiteral (.int16 value)

/-- A push of a 32-bit literal. -/
def pushInt32 (value : Int32) : Instruction :=
  ((plain .push).withTypes .int32 .int32).withLiteral (.int32 value)

/-- A push of a string literal. -/
def pushString (value : String) : Instruction :=
  ((plain .push).withTypes .string .string).withLiteral (.string value)

/-- A push of a variable, by one of the pushing opcodes. -/
def pushVariable (opcode : Opcode) (target : VarRef) (reference : Reference) : Instruction :=
  ((plain opcode).withTarget target reference).withOwner target.owner

/-- A store to a variable. -/
def popVariable (target : VarRef) (reference : Reference) (type1 : SlotType) : Instruction :=
  (((plain .pop).withTypes type1 .variable).withTarget target reference).withOwner target.owner

/-- A call of a named function. -/
def call (function : String) (argCount : UInt16) : Instruction :=
  ((plain .call).withTypes .int32 .int32).withFunction function argCount

/-- A conversion of the top slot. -/
def convert (source target : SlotType) : Instruction :=
  (plain .convert).withTypes source target

/-- The literal as a 16-bit integer, zero without one. -/
def int16 (i : Instruction) : Int16 :=
  i.literal.elim 0 Literal.toInt16

/-- The literal as a 32-bit integer, zero without one. -/
def int32 (i : Instruction) : Int32 :=
  i.literal.elim 0 Literal.toInt32

/-- The literal as a 64-bit integer, zero without one. -/
def int64 (i : Instruction) : Int64 :=
  i.literal.elim 0 Literal.toInt64

/-- The literal as a number, zero without one. -/
def double (i : Instruction) : Double :=
  i.literal.elim (.zero false) Literal.toDouble

/-- The literal as a string, empty without one. -/
def text (i : Instruction) : String :=
  i.literal.elim "" Literal.toText

end Instruction

end GmlDecompiler

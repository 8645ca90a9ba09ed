import GmlDecompiler.Instruction.Basic

/-!
# Structured code

The input of the decompiler: instructions already arranged into branches, loops, guarded
regions and nested routines. A region is a list of nodes that run one after another.
-/

namespace GmlDecompiler

/-- How a chain of conditions is joined. -/
inductive Logic where
  | and
  | or
  deriving DecidableEq

/-- A straight run of instructions. -/
structure CodeBlock where
  /-- The address of the run. -/
  start : UInt32 := 0
  /-- The instructions in order. -/
  code : List Instruction
  deriving DecidableEq

/-- What is known of a nested routine before its body. -/
structure RoutineHeader where
  /-- The name of its code. -/
  codeName : String
  /-- The name it is declared with, if it has one. -/
  name : Option String := none
  /-- It is a constructor. -/
  isConstructor : Bool := false
  /-- The number of arguments it declares. -/
  argCount : UInt16 := 0
  deriving DecidableEq

/-- A node of structured code. -/
inductive Node where
  /-- Instructions without control flow. -/
  | block (code : CodeBlock)
  /-- A branch on the value on top of the stack. -/
  | branch (thenPart : List Node) (elsePart : Option (List Node))
  /-- Conditions of which a later one runs only if the earlier ones do not decide. -/
  | chain (logic : Logic) (conditions : List (List Node))
  /-- A loop that runs its body while the value its condition leaves is true. -/
  | loop (condition : List Node) (body : List Node)
  /-- A jump out of the innermost loop. -/
  | leave
  /-- A jump to the next round of the innermost loop. -/
  | again
  /-- A guarded region and what runs after it in any case. -/
  | guarded (body : List Node) (cleanup : Option (List Node))
  /-- A region whose assignments run once per routine. -/
  | statics (body : List Node)
  /-- A nested routine. -/
  | routine (header : RoutineHeader) (body : List Node)

/-- A piece of code with a name of its own. -/
structure Entry where
  /-- Its name. -/
  name : String
  /-- The number of arguments it declares. -/
  argCount : UInt16 := 0
  /-- Its code. -/
  body : List Node

end GmlDecompiler

import GmlDecompiler.EnumDef
import GmlDecompiler.Skeleton.Basic
import Std.Data.ExtTreeSet

/-!
# The source tree

Expressions, statements, routines, and the fragment of code that each routine is made from.
They refer to each other: a routine is an expression, it has statements, and it keeps the
fragment it was built in, whose stack holds expressions. Recursive functions on the tree are
structural, with one function for each of the types and for the lists between them.
-/

namespace GmlDecompiler

/-- The names given to arguments so far. -/
structure Naming where
  /-- The name of each argument that has one. -/
  byIndex : Table Nat String := ∅
  /-- All names given. -/
  taken : Std.ExtTreeSet String compare := ∅
  deriving DecidableEq

/-- An enum declaration. -/
structure EnumDecl where
  /-- The enum declared. -/
  definition : EnumDef
  /-- An empty line goes before it. -/
  blankBefore : Bool := false
  /-- An empty line goes after it. -/
  blankAfter : Bool := false
  deriving DecidableEq

mutual

/-- An expression on the operand stack. -/
structure Expr where
  /-- What it is. -/
  shape : Shape
  /-- A duplication copied it, so that dropping it is no statement. -/
  duplicated : Bool := false
  /-- It is written in parentheses. -/
  grouped : Bool := false
  /-- The type of the slot it takes. -/
  slot : SlotType

/-- What an expression is. -/
inductive Shape where
  /-- A 16-bit integer. -/
  | int16 (value : Int16)
  /-- A 32-bit integer. -/
  | int32 (value : Int32)
  /-- A 64-bit integer. -/
  | int64 (value : Int64)
  /-- A number. -/
  | double (value : Double)
  /-- A string. -/
  | string (value : String)
  /-- A truth value. -/
  | boolean (value : Bool)
  /-- An instance. -/
  | keyword (value : Instance)
  /-- A function by its name. -/
  | function (name : String)
  /-- A constant or enum member, written as it is. -/
  | constant (name : String)
  /-- A variable. -/
  | access (target : Access)
  /-- An operator with one operand. -/
  | unary (operator : Instruction) (operand : Expr)
  /-- An operator with two operands. -/
  | binary (operator : Instruction) (left right : Expr)
  /-- A call of a function by its name. -/
  | call (function : String) (arguments : List Expr)
  /-- A call of a function value. -/
  | callValue (callee self : Expr) (arguments : List Expr)
  /-- An instance made by a constructor. -/
  | construct (callee : Expr) (arguments : List Expr)
  /-- Conditions joined by `&&` or `||`. -/
  | chain (logic : Logic) (conditions : List Expr)
  /-- A routine as a value. -/
  | routine (routine : Routine)
  /-- A struct literal. Its values are the struct arguments of the routine's fragment. -/
  | struct (routine : Routine)

/-- A variable as it is accessed. -/
structure Access where
  /-- The variable. -/
  target : VarRef
  /-- How it is found. -/
  reference : Reference := .normal
  /-- Whose it is. -/
  owner : Expr
  /-- The array indices, if it is an array access. -/
  indices : Option (List Expr) := none
  /-- The plain push instruction read it. -/
  regularPush : Bool := false
  /-- The name it is shown by, if it is an argument that has one. -/
  argumentName : Option String := none

/-- A statement. -/
inductive Stmt where
  /-- Statements in a row. -/
  | block (block : Block)
  /-- An expression evaluated for its effect. -/
  | eval (value : Expr)
  /-- An assignment. -/
  | assign (target value : Expr)
  /-- The declaration of a static variable. -/
  | static (target value : Expr)
  /-- A return with a value. -/
  | ret (value : Expr)
  /-- A return without a value. -/
  | exit
  /-- A jump out of the innermost loop. -/
  | leave
  /-- A jump to the next round of the innermost loop. -/
  | again
  /-- A branch. -/
  | branch (condition : Expr) (thenPart : Block) (elsePart : Option Block)
  /-- A loop. -/
  | loop (condition : Expr) (body : Block)
  /-- A guarded block and what runs after it in any case. -/
  | guarded (body : Block) (cleanup : Option Block)
  /-- The declaration of the local variables. -/
  | locals (names : List String)
  /-- The declaration of a routine. -/
  | routine (routine : Routine)
  /-- The declaration of an enum. -/
  | enum (declaration : EnumDecl)

/-- Statements in a row. -/
structure Block where
  /-- The statements. -/
  statements : List Stmt := []
  /-- Braces are written around them. -/
  braced : Bool := true

/-- A function, a constructor or the body of a struct literal. -/
structure Routine where
  /-- The name it is declared with, if it has one. -/
  name : Option String := none
  /-- It is a constructor. -/
  isConstructor : Bool := false
  /-- Its statements. -/
  body : Block
  /-- The fragment it was built in. -/
  fragment : Fragment
  /-- The default values found, by ascending argument index. -/
  defaults : List (Nat × Expr) := []
  /-- The names of its parameters. -/
  parameters : List String := []
  /-- An empty line goes before it. -/
  blankBefore : Bool := false
  /-- An empty line goes after it. -/
  blankAfter : Bool := false

/-- The state of one piece of code while it is built and tidied. -/
structure Fragment where
  /-- The name of the code. -/
  codeName : String := ""
  /-- The name it is declared with, if it has one. -/
  name : Option String := none
  /-- The operand stack, top first. -/
  stack : List Expr := []
  /-- The local variables, in order of first use. -/
  locals : List String := []
  /-- The names given to arguments. -/
  naming : Naming := {}
  /-- The highest argument index referred to, `-1` for none. -/
  maxArgument : Int32 := -1
  /-- The code being built is the body of a loop. -/
  inLoop : Bool := false
  /-- The pending cleanups, innermost first. -/
  cleanups : List (List Stmt) := []
  /-- The local variables that are not to be declared. -/
  purge : List String := []
  /-- The names of the routines declared here, by the names of their code. -/
  routineNames : Table String String := ∅
  /-- The routines declared but not yet used, by the names of their code, in order. -/
  pending : List (String × Routine) := []
  /-- The values a struct literal is made from. -/
  structArguments : Option (List Expr) := none
  /-- The call of the parent constructor. -/
  parentCall : Option Expr := none

end

end GmlDecompiler

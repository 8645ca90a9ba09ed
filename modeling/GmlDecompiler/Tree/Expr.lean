import GmlDecompiler.Tree.Basic

/-!
# Expressions

How an expression gets its slot type, the text and the binding strength of operators, and which
argument a variable reads.
-/

namespace GmlDecompiler

/-- The text and the binding strength of an operator; a stronger one binds tighter. -/
structure Operator where
  /-- The text. -/
  symbol : String
  /-- The binding strength. -/
  strength : Nat
  deriving DecidableEq

/-- Both operands of an operator are truth values. -/
def Instruction.isLogical (i : Instruction) : Bool :=
  i.type1 == .boolean && i.type2 == .boolean

/-- The operator of an instruction with two operands. -/
def Instruction.operator (i : Instruction) : Operator :=
  match i.opcode with
  | .or => if i.isLogical then ⟨"||", 1⟩ else ⟨"|", 5⟩
  | .xor => if i.isLogical then ⟨"^^", 2⟩ else ⟨"^", 6⟩
  | .and => if i.isLogical then ⟨"&&", 3⟩ else ⟨"&", 7⟩
  | .compare => ⟨i.comparison.elim "==" Comparison.symbol, 4⟩
  | .shiftLeft => ⟨"<<", 8⟩
  | .shiftRight => ⟨">>", 8⟩
  | .add => ⟨"+", 9⟩
  | .subtract => ⟨"-", 9⟩
  | .multiply => ⟨"*", 10⟩
  | .divide => ⟨"/", 10⟩
  | .remainder => ⟨"div", 10⟩
  | .modulo => ⟨"%", 10⟩
  | _ => ⟨"?", 11⟩

/-- The operator of an instruction with one operand. -/
def Instruction.unarySymbol (i : Instruction) : String :=
  if i.opcode = .negate then "-" else if i.type1 = .boolean then "!" else "~"

/-- The operator of a chain of conditions. -/
def Logic.operator : Logic → Operator
  | .or => ⟨"||", 1⟩
  | .and => ⟨"&&", 3⟩

/-- The type of the result of an instruction with two operands: comparisons give truth values,
and of two types the wider one stands. -/
def Instruction.resultSlot (i : Instruction) : SlotType :=
  if i.opcode = .compare then .boolean
  else if i.type1 = i.type2 then i.type1
  else if i.type1 = .variable ∨ i.type2 = .variable then .variable
  else if i.type1 = .double ∨ i.type2 = .double then .double
  else if i.type1 = .int64 ∨ i.type2 = .int64 then .int64
  else .int32

/-- The type of the slot a new expression takes. -/
def Shape.slot : Shape → SlotType
  | .int16 _ | .keyword _ => .int16
  | .int32 _ | .function _ => .int32
  | .int64 _ => .int64
  | .double _ => .double
  | .string _ => .string
  | .boolean _ | .chain _ _ => .boolean
  | .unary operator _ => operator.type1
  | .binary operator _ _ => operator.resultSlot
  | .constant _ | .access _ | .call _ _ | .callValue _ _ _ | .construct _ _ | .routine _
  | .struct _ => .variable

namespace Expr

/-- A new expression. -/
def ofShape (shape : Shape) : Expr where
  shape := shape
  slot := shape.slot

/-- The value of an integer literal. -/
def integer? (e : Expr) : Option Int64 :=
  match e.shape with
  | .int16 value => some value.toInt64
  | .int32 value => some value.toInt64
  | .int64 value => some value
  | _ => none

/-- The access of a variable expression. -/
def access? (e : Expr) : Option Access :=
  match e.shape with
  | .access target => some target
  | _ => none

/-- The binding strength of an expression as an operand; none for an expression that needs no
parentheses. -/
def strength? (e : Expr) : Option Nat :=
  match e.shape with
  | .binary operator _ _ => some operator.operator.strength
  | .chain logic _ => some logic.operator.strength
  | _ => none

/-- The expression in parentheses if a condition holds. -/
def groupIf (condition : Bool) (e : Expr) : Expr :=
  { e with grouped := e.grouped || condition }

end Expr

/-- The integer that a nonempty run of digits denotes, if it fits 64 bits. -/
def decimalIndex? (digits : List Char) : Option Nat :=
  let value := Double.digitsValue digits
  if !digits.isEmpty && digits.all Char.isDigit && value < UInt64.size then some value else none

namespace Access

/-- The rest of a name after the word `argument`. -/
def afterArgument? (name : String) : Option (List Char) :=
  let word := "argument".toList
  if word.isPrefixOf name.toList then some (name.toList.drop word.length) else none

/-- The argument that the variable reads, for `argumentN` and for `argument[N]`. -/
def argumentIndex? (a : Access) : Option Nat :=
  if a.target.name = "argument" then
    match a.indices with
    | some [index] => index.integer?.bind fun value => if 0 ≤ value then some value.toInt.toNat
        else none
    | _ => none
  else (afterArgument? a.target.name).bind decimalIndex?

/-- The access reads the variable `undefined` itself. -/
def isUndefined (a : Access) : Bool :=
  a.target.name == "undefined" && a.indices.isNone

end Access

end GmlDecompiler

import GmlDecompiler.Layout.Step
import GmlDecompiler.Tree.Expr

/-!
# The text of a tree

Every node of the tree as a list of layout steps. Two trees have no text: an instance made by a
constructor that is neither a function nor a variable, and a struct literal whose body is more
than assignments.
-/

namespace GmlDecompiler

/-- A character of a string literal. -/
def escapeChar (c : Char) : List Char :=
  if c = '"' then ['\\', '"']
  else if c = '\\' then ['\\', '\\']
  else if c = '\n' then ['\\', 'n']
  else if c = '\r' then ['\\', 'r']
  else if c = '\t' then ['\\', 't']
  else [c]

/-- A string literal. -/
def quoteString (s : String) : String :=
  String.ofList ('"' :: s.toList.flatMap escapeChar ++ ['"'])

/-- The instance is understood without being written before a variable. -/
def Instance.isImplicit : Instance → Bool
  | .own | .locals | .builtin | .argument | .static | .stackTop | .undefined => true
  | _ => false

/-- The instance that an owner names, if it names one. -/
def Expr.instance? (e : Expr) : Option Instance :=
  match e.shape with
  | .keyword value => some value
  | .int16 value => some (.ofRaw value)
  | _ => none

/-- The constructor of a new instance has a text. -/
def Expr.isPlainConstructor (e : Expr) : Bool :=
  match e.shape with
  | .function _ | .access _ | .routine _ => true
  | _ => false

/-- The steps in parentheses if a condition holds. -/
def parenthesize (condition : Bool) (steps : List Step) : List Step :=
  if condition then .write "(" :: steps ++ [.write ")"] else steps

/-- The words before the parameters of a routine. -/
def Routine.heading : Option String → List Step
  | some name => [.write "function ", .write name, .write "("]
  | none => [.write "function("]

/-- A statement that is a member of a struct literal. -/
def Stmt.isMember : Stmt → Bool
  | .assign _ _ => true
  | _ => false

/-- The statements of the body of a struct literal have a text. -/
def isStructBody (statements : List Stmt) : Bool :=
  statements.all fun s => s.isMember || s matches .locals _

namespace Stmt

/-- A semicolon ends the statement. -/
def hasSemicolon : Stmt → Bool
  | .eval _ | .assign _ _ | .static _ _ | .ret _ | .exit | .leave | .again | .locals _ => true
  | .block _ | .branch _ _ _ | .loop _ _ | .guarded _ _ | .routine _ | .enum _ => false

/-- An empty line goes before the statement. -/
def blankBefore : Stmt → Bool
  | .routine r => r.blankBefore
  | .enum declaration => declaration.blankBefore
  | _ => false

/-- An empty line goes after the statement. -/
def blankAfter : Stmt → Bool
  | .routine r => r.blankAfter
  | .enum declaration => declaration.blankAfter
  | _ => false

end Stmt

namespace EnumDecl

/-- The members of an enum, one a line. A value is written only if it is not the expected one. -/
def memberSteps (expected : Int64) : List EnumMember → List Step
  | [] => []
  | m :: rest =>
    let value := if m.value = expected then [] else [.write " = ", .write (toString m.value.toInt)]
    let comma := if rest.isEmpty then [] else [.write ","]
    [.startLine, .write m.name] ++ value ++ comma ++ [.endLine]
      ++ memberSteps (EnumDef.successor m.value) rest

/-- An enum declaration. -/
def steps (e : EnumDecl) : List Step :=
  [.write "enum ", .write e.definition.name, .openBlock] ++ memberSteps 0 e.definition.sorted
    ++ [.closeBlock]

end EnumDecl

/-- The parameters from an index on, each with its default value if it has one. -/
def parameterSteps (defaults : List (Nat × Except Fault (List Step))) (index : Nat) :
    List String → Except Fault (List Step)
  | [] => .ok []
  | name :: rest => do
    let value ←
      match defaults.lookup index with
      | some value => do
        let value ← value
        pure (.write " = " :: value)
      | none => pure []
    let rest' ← parameterSteps defaults (index + 1) rest
    let comma := if rest.isEmpty then [] else [.write ", "]
    return .write name :: value ++ comma ++ rest'

mutual

/-- The steps of an expression. -/
def Expr.steps : Expr → Except Fault (List Step)
  | ⟨shape, _, grouped, _⟩ => do
    let steps ← shape.steps
    return parenthesize grouped steps

/-- The steps of a shape. -/
def Shape.steps : Shape → Except Fault (List Step)
  | .int16 value => .ok [.write (toString value.toInt)]
  | .int32 value => .ok [.write (toString value.toInt)]
  | .int64 value => .ok [.write (toString value.toInt)]
  | .double value => .ok [.write value.text]
  | .string value => .ok [.write (quoteString value)]
  | .boolean value => .ok [.write (if value then "true" else "false")]
  | .keyword value => .ok [.write value.text]
  | .function name => .ok [.function name]
  | .constant name => .ok [.write name]
  | .access a => a.steps
  | .unary operator operand => do
    let operand ← operand.steps
    return .write operator.unarySymbol :: operand
  | .binary operator left right => do
    let left ← left.steps
    let right ← right.steps
    return left ++ [.write " ", .write operator.operator.symbol, .write " "] ++ right
  | .call function arguments => do
    let arguments ← separatedSteps [.write ", "] arguments
    return [.function function, .write "("] ++ arguments ++ [.write ")"]
  | .callValue callee _ arguments => do
    let callee ← callee.steps
    let arguments ← separatedSteps [.write ", "] arguments
    return callee ++ [.write "("] ++ arguments ++ [.write ")"]
  | .construct callee arguments =>
    if callee.isPlainConstructor then do
      let callee ← callee.steps
      let arguments ← separatedSteps [.write ", "] arguments
      return .write "new " :: callee ++ [.write "("] ++ arguments ++ [.write ")"]
    else .error (.unprintable .computedConstructor)
  | .chain logic conditions =>
    separatedSteps [.write " ", .write logic.operator.symbol, .write " "] conditions
  | .routine routine => routine.steps
  | .struct routine => routine.structSteps

/-- The steps of a variable access. -/
def Access.steps : Access → Except Fault (List Step)
  | ⟨_, _, _, _, _, some name⟩ => .ok [.write name]
  | ⟨target, _, owner, indices, _, none⟩ => do
    let owner ←
      match owner.instance? with
      | some value =>
        if value.isImplicit then pure [] else pure [.write value.text, .write "."]
      | none => do
        let owner ← owner.steps
        pure (owner ++ [.write "."])
    let indices ← indexSteps indices
    return owner ++ .write target.name :: indices

/-- The steps of array indices. -/
def indexSteps : Option (List Expr) → Except Fault (List Step)
  | none => .ok []
  | some indices => do
    let indices ← separatedSteps [.write ", "] indices
    return .write "[" :: indices ++ [.write "]"]

/-- The steps of expressions with a separator between them. -/
def separatedSteps (separator : List Step) : List Expr → Except Fault (List Step)
  | [] => .ok []
  | [e] => e.steps
  | e :: es => do
    let first ← e.steps
    let rest ← separatedSteps separator es
    return first ++ separator ++ rest

/-- The steps of a statement, without a semicolon. -/
def Stmt.steps : Stmt → Except Fault (List Step)
  | .block block => block.steps
  | .eval value => value.steps
  | .assign target value => do
    let target ← target.steps
    let value ← value.steps
    return target ++ .write " = " :: value
  | .static target value => do
    let target ← target.steps
    let value ← value.steps
    return .write "static " :: target ++ .write " = " :: value
  | .ret value => do
    let value ← value.steps
    return .write "return " :: value
  | .exit => .ok [.write "exit"]
  | .leave => .ok [.write "break"]
  | .again => .ok [.write "continue"]
  | .branch condition thenPart elsePart => do
    let condition ← condition.steps
    let thenPart ← thenPart.steps
    let elsePart ← continuedSteps "else" elsePart
    return .write "if (" :: condition ++ .write ")" :: thenPart ++ elsePart
  | .loop condition body => do
    let condition ← condition.steps
    let body ← body.steps
    return .write "while (" :: condition ++ .write ")" :: body
  | .guarded body cleanup => do
    let body ← body.steps
    let cleanup ← continuedSteps "finally" cleanup
    return .write "try" :: body ++ cleanup
  | .locals names => .ok [.write "var ", .write (", ".intercalate names)]
  | .routine routine => routine.steps
  | .enum declaration => .ok declaration.steps

/-- The steps of a block that goes on after another. -/
def continuedSteps (keyword : String) : Option Block → Except Fault (List Step)
  | none => .ok []
  | some block => do
    let block ← block.steps
    return .continueAfter keyword :: block

/-- The steps of a block. -/
def Block.steps : Block → Except Fault (List Step)
  | ⟨statements, braced⟩ => do
    let statements ← lineSteps false statements
    return if braced then .openBlock :: statements ++ [.closeBlock] else statements

/-- The steps of statements, one a line, with an empty line before the first if one is due. -/
def lineSteps (blankDue : Bool) : List Stmt → Except Fault (List Step)
  | [] => .ok []
  | s :: rest => do
    let steps ← s.steps
    let blankNext := s.blankAfter || (rest.head?.any Stmt.blankBefore)
    let rest ← lineSteps blankNext rest
    return (if blankDue then [.blankLine] else []) ++ .startLine :: steps
      ++ (if s.hasSemicolon then [.write ";"] else []) ++ .endLine :: rest

/-- The steps of a routine. -/
def Routine.steps : Routine → Except Fault (List Step)
  | ⟨name, isConstructor, body, fragment, defaults, parameters, _, _⟩ => do
    let parameters ← parameterSteps (defaultSteps defaults) 0 parameters
    let parentCall ← fragment.parentCallSteps
    let body ← body.steps
    return Routine.heading name ++ .enter fragment :: parameters ++ .write ")" :: parentCall
      ++ (if isConstructor then [.write " constructor"] else []) ++ body ++ [.leave]

/-- The steps of each default value. -/
def defaultSteps : List (Nat × Expr) → List (Nat × Except Fault (List Step))
  | [] => []
  | (index, value) :: rest => (index, value.steps) :: defaultSteps rest

/-- The steps of the call of the parent constructor. -/
def Fragment.parentCallSteps : Fragment → Except Fault (List Step)
  | ⟨_, _, _, _, _, _, _, _, _, _, _, _, none⟩ => .ok []
  | ⟨_, _, _, _, _, _, _, _, _, _, _, _, some call⟩ => do
    let call ← call.steps
    return .write " : " :: call

/-- The steps of a struct literal. -/
def Routine.structSteps : Routine → Except Fault (List Step)
  | ⟨_, _, body, _, _, _, _, _⟩ => body.structSteps

/-- The steps of the body of a struct literal. -/
def Block.structSteps : Block → Except Fault (List Step)
  | ⟨statements, _⟩ =>
    if !isStructBody statements then .error (.unprintable .structStatement)
    else if !statements.any Stmt.isMember then .ok [.write "\x7b\x7d"]
    else do
      let members ← memberSteps statements
      return .openInline :: members ++ [.closeBlock]

/-- The steps of the members of a struct literal, one a line, with commas between them. -/
def memberSteps : List Stmt → Except Fault (List Step)
  | [] => .ok []
  | .assign target value :: rest =>
    match target.access? with
    | none => .error (.unexpected .structMember)
    | some a => do
      let value ← value.steps
      let comma := if rest.any Stmt.isMember then [.write ","] else []
      let rest ← memberSteps rest
      return [.startLine, .write a.target.name, .write ": "] ++ value ++ comma ++ .endLine :: rest
  | _ :: rest => memberSteps rest

end

end GmlDecompiler

import GmlDecompiler.Config

/-!
# Tidying a tree

The tree as it was built says what the code does; tidying makes it what an author would write.
Operands get the parentheses they need, integers are read as names, arguments get names, checks
for missing arguments become default values, struct literals get their values, and enum
declarations are added. The scopes are the fragments around the place that is tidied, innermost
first.
-/

namespace GmlDecompiler

/-- The fragments around a place in the tree, innermost first. -/
abbrev Scopes := List Fragment

/-- The value that a struct literal has for an argument. -/
def Scopes.structArgument? (scopes : Scopes) (index : Nat) : Option Expr :=
  scopes.head?.bind fun f => f.structArguments.bind (·[index]?)

/-- The value that stands for a variable inside a struct literal. -/
def Shape.substitute? (scopes : Scopes) : Shape → Option Expr
  | .access a => a.argumentIndex?.bind (scopes.structArgument? ·)
  | _ => none

/-- A computation inside some scopes, which may fail. -/
abbrev Tidying (α : Type) := StateT Scopes (Except Fault) α

namespace Tidying

/-- A new innermost scope. -/
def enter (f : Fragment) : Tidying Unit :=
  modify (f :: ·)

/-- The innermost scope left. -/
def leave : Tidying Fragment
  | [] => .error .noFragment
  | f :: scopes => .ok (f, scopes)

/-- An argument that is read: the innermost scope notes it, and inside a nested routine the
access shows its name. -/
def noteArgument (c : Config) (a : Access) (index : Nat) : Tidying Access
  | [] => .error .noFragment
  | [f] => .ok (a, [f.noteArgument index])
  | f :: outer :: scopes =>
    let (name, f) := c.nameArgument (f.noteArgument index) index
    .ok ({ a with argumentName := name }, f :: outer :: scopes)

end Tidying

/-- A variable access whose parts are tidied. -/
def Config.finishAccess (c : Config) (a : Access) : Tidying Access :=
  match a.argumentIndex? with
  | none => return a
  | some index => Tidying.noteArgument c a index

namespace Config

/-- An expression beside a variable, read as the variable's values are if it has a reading. -/
def readBeside (c : Config) (beside e : Expr) : Option Expr :=
  beside.access?.bind fun a =>
    c.readings.byVariable[a.target.name]?.map fun reading => reading.apply c.enums e

/-- The operands of a comparison: each is read by the reading of the other, the left variable
coming first. -/
def readCompared (c : Config) (left right : Expr) : Expr × Expr :=
  match c.readBeside left right with
  | some right => (left, right)
  | none => ((c.readBeside right left).getD left, right)

/-- The operands of an operator, with the parentheses they need: the left one if it binds less
tightly, the right one if it does not bind more tightly. -/
def groupOperands (operator : Instruction) (left right : Expr) : Expr × Expr :=
  let own := operator.operator.strength
  (left.groupIf (left.strength?.any (· < own)), right.groupIf (right.strength?.any (· ≤ own)))

/-- The operands of an operator, read and grouped. -/
def operands (c : Config) (operator : Instruction) (left right : Expr) : Expr × Expr :=
  let (left, right) :=
    if operator.opcode = .compare then c.readCompared left right else (left, right)
  groupOperands operator left right

/-- A condition of a chain, in parentheses if it is a chain itself. -/
def groupCondition (e : Expr) : Expr :=
  match e.shape with
  | .chain _ _ => e.groupIf true
  | _ => e

/-- An assignment. The assignment of a named routine to its own name is its declaration. -/
def assign (c : Config) (target value : Expr) : Stmt :=
  let value := (c.readBeside target value).getD value
  match value.shape with
  | .routine routine =>
    if routine.name.isSome && routine.name == target.access?.map (·.target.name) then
      .routine routine
    else .assign target value
  | _ => .assign target value

/-- The names of `count` parameters from the index `first` on. -/
def parameters (c : Config) : (count first : Nat) → Fragment → List String × Fragment
  | 0, _, f => ([], f)
  | count + 1, first, f =>
    let (name, f) := c.nameArgument f first
    let (names, f) := c.parameters count (first + 1) f
    (name.getD ("argument" ++ toString first) :: names, f)

end Config

/-- A check for a missing argument: `if (argument == undefined) argument = value`. Gives the
argument and the value. -/
def Stmt.defaultCheck? : Stmt → Option (Nat × Expr)
  | .branch condition ⟨[.assign target value], _⟩ none =>
    match condition.shape with
    | .binary operator left right =>
      match left.access?, right.access? with
      | some argument, some undefined =>
        argument.argumentIndex?.bind fun index =>
          if operator.opcode = .compare ∧ operator.comparison = some .equal
              ∧ undefined.isUndefined ∧ target.access?.bind Access.argumentIndex? = some index then
            some (index, value)
          else none
      | _, _ => none
    | _ => none
  | _ => none

/-- A default value put at its place. -/
def putDefault (index : Nat) (value : Expr) : List (Nat × Expr) → List (Nat × Expr)
  | [] => [(index, value)]
  | (i, e) :: rest =>
    if index < i then (index, value) :: (i, e) :: rest
    else if index = i then (index, value) :: rest
    else (i, e) :: putDefault index value rest

/-- The longest run of checks with ascending indices that have no default yet, moved from the
statements to the defaults. -/
def foldChecks (last : Option Nat) (defaults : List (Nat × Expr)) :
    List Stmt → List (Nat × Expr) × List Stmt
  | [] => (defaults, [])
  | s :: rest =>
    match s.defaultCheck? with
    | some (index, value) =>
      if (defaults.lookup index).isSome || last.any (index ≤ ·) then (defaults, s :: rest)
      else foldChecks (some index) (putDefault index value defaults) rest
    | none => (defaults, s :: rest)

/-- The statement declares local variables. -/
def Stmt.isLocals : Stmt → Bool
  | .locals _ => true
  | _ => false

/-- The checks that follow the declaration of the local variables folded into defaults. -/
def Routine.foldDefaults (r : Routine) : Routine :=
  let before := r.body.statements.takeWhile Stmt.isLocals
  let (defaults, rest) :=
    foldChecks none r.defaults (r.body.statements.dropWhile Stmt.isLocals)
  { r with defaults := defaults, body := ⟨before ++ rest, r.body.braced⟩ }

/-- A routine whose parts are tidied, the innermost scope being its fragment. The body of a
struct literal is no declaration; any other routine gets its layout, defaults and
parameters. -/
def Config.finishRoutine (c : Config) (r : Routine) : Routine :=
  if r.fragment.isStruct then r
  else
    let r := { r with
      blankBefore := c.settings.blankAroundRoutines
      blankAfter := c.settings.blankAroundRoutines }
    let r := if c.settings.foldDefaults then r.foldDefaults else r
    let (parameters, f) := c.parameters r.fragment.parameterCount 0 r.fragment
    { r with parameters := parameters, fragment := f }

/-- An enum declaration with its layout. -/
def EnumDecl.tidy (c : Config) (e : EnumDecl) : EnumDecl :=
  { e with
    blankBefore := c.settings.blankAroundEnums
    blankAfter := c.settings.blankAroundEnums }

mutual

/-- An expression tidied. -/
def Expr.tidy (c : Config) : Expr → Tidying Expr
  | ⟨shape, duplicated, grouped, slot⟩ => do
    let scopes ← get
    match shape.substitute? scopes with
    | some argument => return argument
    | none => do
      let shape ← shape.tidy c
      return ⟨shape, duplicated, grouped, slot⟩

/-- A shape tidied. -/
def Shape.tidy (c : Config) : Shape → Tidying Shape
  | .access a => do
    let a ← a.tidy c
    return .access a
  | .unary operator operand => do
    let operand ← operand.tidy c
    return .unary operator (operand.groupIf operand.strength?.isSome)
  | .binary operator left right => do
    let left ← left.tidy c
    let right ← right.tidy c
    let (left, right) := c.operands operator left right
    return .binary operator left right
  | .call function arguments => do
    let arguments ← tidyExprs c arguments
    return .call function (c.readings.readArguments c.enums function arguments)
  | .callValue callee self arguments => do
    let callee ← callee.tidy c
    let self ← self.tidy c
    let arguments ← tidyExprs c arguments
    return .callValue callee self arguments
  | .construct callee arguments => do
    let callee ← callee.tidy c
    let arguments ← tidyExprs c arguments
    return .construct callee arguments
  | .chain logic conditions => do
    let conditions ← tidyExprs c conditions
    return .chain logic (conditions.map Config.groupCondition)
  | .routine routine => do
    let routine ← routine.tidy c routine.fragment.structArguments
    return .routine routine
  | .struct routine => do
    let arguments ← routine.tidyArguments c
    let routine ← routine.tidy c arguments
    return .struct routine
  | other => return other

/-- A variable access tidied. -/
def Access.tidy (c : Config) : Access → Tidying Access
  | ⟨target, reference, owner, indices, regularPush, argumentName⟩ => do
    let owner ← owner.tidy c
    let indices ← tidyOptionalExprs c indices
    c.finishAccess ⟨target, reference, owner, indices, regularPush, argumentName⟩

/-- Expressions tidied one after another. -/
def tidyExprs (c : Config) : List Expr → Tidying (List Expr)
  | [] => return []
  | e :: es => do
    let e ← e.tidy c
    let es ← tidyExprs c es
    return e :: es

/-- Expressions, if there are any, tidied. -/
def tidyOptionalExprs (c : Config) : Option (List Expr) → Tidying (Option (List Expr))
  | none => return none
  | some es => do
    let es ← tidyExprs c es
    return some es

/-- An expression, if there is one, tidied. -/
def tidyOptionalExpr (c : Config) : Option Expr → Tidying (Option Expr)
  | none => return none
  | some e => do
    let e ← e.tidy c
    return some e

/-- A statement tidied. -/
def Stmt.tidy (c : Config) : Stmt → Tidying Stmt
  | .block block => do
    let block ← block.tidy c
    return .block block
  | .eval value => do
    let value ← value.tidy c
    return .eval value
  | .assign target value => do
    let target ← target.tidy c
    let value ← value.tidy c
    return c.assign target value
  | .static target value => do
    let target ← target.tidy c
    let value ← value.tidy c
    return .static target value
  | .ret value => do
    let value ← value.tidy c
    return .ret value
  | .branch condition thenPart elsePart => do
    let condition ← condition.tidy c
    let thenPart ← thenPart.tidy c
    let elsePart ← tidyOptionalBlock c elsePart
    return .branch condition thenPart elsePart
  | .loop condition body => do
    let condition ← condition.tidy c
    let body ← body.tidy c
    return .loop condition body
  | .guarded body cleanup => do
    let body ← body.tidy c
    let cleanup ← tidyOptionalBlock c cleanup
    return .guarded body cleanup
  | .routine routine => do
    let routine ← routine.tidy c routine.fragment.structArguments
    return .routine routine
  | .enum declaration => return .enum (declaration.tidy c)
  | other => return other

/-- A block tidied. -/
def Block.tidy (c : Config) : Block → Tidying Block
  | ⟨statements, braced⟩ => do
    let statements ← tidyStmts c statements
    return ⟨statements, braced⟩

/-- A block, if there is one, tidied. -/
def tidyOptionalBlock (c : Config) : Option Block → Tidying (Option Block)
  | none => return none
  | some block => do
    let block ← block.tidy c
    return some block

/-- Statements tidied one after another. -/
def tidyStmts (c : Config) : List Stmt → Tidying (List Stmt)
  | [] => return []
  | s :: ss => do
    let s ← s.tidy c
    let ss ← tidyStmts c ss
    return s :: ss

/-- A routine tidied, with the given values for its struct arguments. Its own fragment is the
innermost scope of its parts. -/
def Routine.tidy (c : Config) : Routine → (structArguments : Option (List Expr)) → Tidying Routine
  | ⟨name, isConstructor, body, fragment, defaults, parameters, blankBefore, blankAfter⟩,
      structArguments => do
    Tidying.enter { fragment with structArguments := structArguments }
    let body ← body.tidy c
    let parentCall ← fragment.tidyParentCall c
    let inner ← Tidying.leave
    return c.finishRoutine
      ⟨name, isConstructor, ⟨body.statements, true⟩, { inner with parentCall := parentCall },
        defaults, parameters, blankBefore, blankAfter⟩

/-- The struct arguments of a routine tidied; they belong to the scopes around it. -/
def Routine.tidyArguments (c : Config) : Routine → Tidying (Option (List Expr))
  | ⟨_, _, _, fragment, _, _, _, _⟩ => fragment.tidyArguments c

/-- The struct arguments of a fragment tidied. -/
def Fragment.tidyArguments (c : Config) : Fragment → Tidying (Option (List Expr))
  | ⟨_, _, _, _, _, _, _, _, _, _, _, structArguments, _⟩ => tidyOptionalExprs c structArguments

/-- The call of the parent constructor tidied. -/
def Fragment.tidyParentCall (c : Config) : Fragment → Tidying (Option Expr)
  | ⟨_, _, _, _, _, _, _, _, _, _, _, _, parentCall⟩ => tidyOptionalExpr c parentCall

end

/-- The declarations of the enums added to a tree, which must be a block. -/
def Config.declareEnums (c : Config) : Stmt → Except Fault Stmt
  | .block block =>
    let declarations := c.enums.map fun e => Stmt.enum (EnumDecl.tidy c { definition := e })
    let statements :=
      if c.settings.enumsFirst then declarations ++ block.statements
      else block.statements ++ declarations
    .ok (.block { block with statements := statements })
  | _ => .error (.unexpected .block)

/-- The tree of an entry tidied in its fragment. -/
def Config.tidyEntry (c : Config) (root : Stmt) : Action Stmt := fun f => do
  let (root, scopes) ← root.tidy c [f]
  let root ← c.declareEnums root
  match scopes with
  | [] => .error .noFragment
  | f :: _ => return (root, f)

end GmlDecompiler

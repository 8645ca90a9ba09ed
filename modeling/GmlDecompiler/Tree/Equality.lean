import GmlDecompiler.Tree.Basic

/-!
# Sameness of trees

Two trees are the same if they have the same parts, numbers being compared by value: a NaN is
never the same as another, and the two zeros are. The local variables of a fragment, its
pending routines and the names it will drop are compared without regard to order.
-/

namespace GmlDecompiler

/-- The same literal, numbers being compared by value. -/
def Literal.same : Literal → Literal → Bool
  | .double a, .double b => a.same b
  | a, b => a == b

/-- The same instruction, numbers being compared by value. -/
def Instruction.same (a b : Instruction) : Bool :=
  { a with literal := none } == { b with literal := none } &&
    match a.literal, b.literal with
    | some a, some b => a.same b
    | none, none => true
    | _, _ => false

/-- The same names in any order, neither list repeating one. -/
def sameNames (as bs : List String) : Bool :=
  as.length == bs.length && as.all bs.contains

mutual

/-- The same expression. -/
def Expr.same : Expr → Expr → Bool
  | ⟨a, aDuplicated, aGrouped, aSlot⟩, ⟨b, bDuplicated, bGrouped, bSlot⟩ =>
    a.same b && aDuplicated == bDuplicated && aGrouped == bGrouped && aSlot == bSlot

/-- The same shape. -/
def Shape.same : Shape → Shape → Bool
  | .int16 a, .int16 b => a == b
  | .int32 a, .int32 b => a == b
  | .int64 a, .int64 b => a == b
  | .double a, .double b => a.same b
  | .string a, .string b => a == b
  | .boolean a, .boolean b => a == b
  | .keyword a, .keyword b => a == b
  | .function a, .function b => a == b
  | .constant a, .constant b => a == b
  | .access a, .access b => a.same b
  | .unary op a, .unary op' a' => op.same op' && a.same a'
  | .binary op a b, .binary op' a' b' => op.same op' && a.same a' && b.same b'
  | .call f as, .call f' as' => f == f' && sameExprs as as'
  | .callValue c s as, .callValue c' s' as' => c.same c' && s.same s' && sameExprs as as'
  | .construct c as, .construct c' as' => c.same c' && sameExprs as as'
  | .chain l as, .chain l' as' => l == l' && sameExprs as as'
  | .routine a, .routine b => a.same b
  | .struct a, .struct b => a.same b
  | _, _ => false

/-- The same variable access. -/
def Access.same : Access → Access → Bool
  | ⟨target, reference, owner, indices, regularPush, argumentName⟩, b =>
    target == b.target && reference == b.reference && owner.same b.owner &&
      sameOptionalExprs indices b.indices && regularPush == b.regularPush &&
      argumentName == b.argumentName

/-- The same expressions in the same order. -/
def sameExprs : List Expr → List Expr → Bool
  | [], [] => true
  | a :: as, b :: bs => a.same b && sameExprs as bs
  | _, _ => false

/-- The same expressions, or none on both sides. -/
def sameOptionalExprs : Option (List Expr) → Option (List Expr) → Bool
  | none, none => true
  | some as, some bs => sameExprs as bs
  | _, _ => false

/-- The same expression, or none on both sides. -/
def sameOptionalExpr : Option Expr → Option Expr → Bool
  | none, none => true
  | some a, some b => a.same b
  | _, _ => false

/-- The same statement. -/
def Stmt.same : Stmt → Stmt → Bool
  | .block a, .block b => a.same b
  | .eval a, .eval b => a.same b
  | .assign a v, .assign b w => a.same b && v.same w
  | .static a v, .static b w => a.same b && v.same w
  | .ret a, .ret b => a.same b
  | .exit, .exit => true
  | .leave, .leave => true
  | .again, .again => true
  | .branch c t e, .branch c' t' e' => c.same c' && t.same t' && sameOptionalBlock e e'
  | .loop c b, .loop c' b' => c.same c' && b.same b'
  | .guarded b c, .guarded b' c' => b.same b' && sameOptionalBlock c c'
  | .locals a, .locals b => a == b
  | .routine a, .routine b => a.same b
  | .enum a, .enum b => a == b
  | _, _ => false

/-- The same block. -/
def Block.same : Block → Block → Bool
  | ⟨as, aBraced⟩, ⟨bs, bBraced⟩ => sameStmts as bs && aBraced == bBraced

/-- The same block, or none on both sides. -/
def sameOptionalBlock : Option Block → Option Block → Bool
  | none, none => true
  | some a, some b => a.same b
  | _, _ => false

/-- The same statements in the same order. -/
def sameStmts : List Stmt → List Stmt → Bool
  | [], [] => true
  | a :: as, b :: bs => a.same b && sameStmts as bs
  | _, _ => false

/-- The same lists of statements in the same order. -/
def sameCleanups : List (List Stmt) → List (List Stmt) → Bool
  | [], [] => true
  | a :: as, b :: bs => sameStmts a b && sameCleanups as bs
  | _, _ => false

/-- The same routine. -/
def Routine.same : Routine → Routine → Bool
  | ⟨name, isConstructor, body, fragment, defaults, parameters, blankBefore, blankAfter⟩, b =>
    name == b.name && isConstructor == b.isConstructor && body.same b.body &&
      fragment.same b.fragment && sameDefaults defaults b.defaults &&
      parameters == b.parameters && blankBefore == b.blankBefore && blankAfter == b.blankAfter

/-- The same default values. -/
def sameDefaults : List (Nat × Expr) → List (Nat × Expr) → Bool
  | [], [] => true
  | (i, a) :: as, (j, b) :: bs => i == j && a.same b && sameDefaults as bs
  | _, _ => false

/-- Every pending routine is the same as the one of its name in the other list. -/
def samePending : List (String × Routine) → List (String × Routine) → Bool
  | [], _ => true
  | (name, a) :: as, bs =>
    (match bs.lookup name with
      | some b => a.same b
      | none => false) && samePending as bs

/-- The same fragment. -/
def Fragment.same : Fragment → Fragment → Bool
  | ⟨codeName, name, stack, locals, naming, maxArgument, inLoop, cleanups, purge, routineNames,
      pending, structArguments, parentCall⟩, b =>
    codeName == b.codeName && name == b.name && sameExprs stack b.stack &&
      sameNames locals b.locals && naming == b.naming && maxArgument == b.maxArgument &&
      inLoop == b.inLoop && sameCleanups cleanups b.cleanups && sameNames purge b.purge &&
      routineNames == b.routineNames && pending.length == b.pending.length &&
      samePending pending b.pending && sameOptionalExprs structArguments b.structArguments &&
      sameOptionalExpr parentCall b.parentCall

end

/-- The statements without a copy of the given ones at their end, if they end with one. -/
def dropTrailing (copy output : List Stmt) : List Stmt :=
  let kept := output.length - copy.length
  if copy.length ≤ output.length && sameStmts copy (output.drop kept) then output.take kept
  else output

end GmlDecompiler

import GmlDecompiler.Proofs.Codegen.Source

/-!
# Trees that are the same as themselves

A tree is the same as itself unless a NaN is in it. Hence the code of commands without a NaN,
built twice, gives statements that are found to be the same.
-/

namespace GmlDecompiler

/-- A number is the same as itself. -/
theorem Double.same_self {x : Double} (hx : x.isNaN = false) : x.same x = true := by
  simp [Double.same, hx]

/-- A literal that is not a NaN is the same as itself. -/
theorem Literal.same_self {value : Literal} (hvalue : value.NotNaN) : value.same value = true := by
  cases value with
  | double x => exact Double.same_self hvalue
  | int16 | int32 | int64 | boolean | string => simp [Literal.same]

/-- An instruction whose literal is not a NaN is the same as itself. -/
theorem Instruction.same_self {i : Instruction} (hi : i.NotNaN) : i.same i = true := by
  cases hliteral : i.literal with
  | none => simp [Instruction.same, hliteral]
  | some value => simp [Instruction.same, hliteral, Literal.same_self (hi value hliteral)]

/-- The address of an instruction is no literal. -/
theorem Instruction.notNaN_atAddress {i : Instruction} (hi : i.NotNaN) (address : UInt32) :
    (i.atAddress address).NotNaN := hi

/-- The shape of a literal that is not a NaN is the same as itself. -/
theorem Literal.shape_same_self {value : Literal} (hvalue : value.NotNaN) :
    value.shape.same value.shape = true := by
  cases value with
  | double x => simpa [Literal.shape, Shape.same] using Double.same_self hvalue
  | int16 | int32 | int64 | boolean | string => simp [Literal.shape, Shape.same]

/-- An expression with a shape that is the same as itself is so too. -/
theorem Expr.ofShape_same_self (shape : Shape) (hshape : shape.same shape = true) :
    (Expr.ofShape shape).same (Expr.ofShape shape) = true := by
  simp [Expr.ofShape, Expr.same, hshape]

mutual

/-- The tree of a term without a NaN is the same as itself. -/
theorem Term.tree_same_self (t : Term) (ht : t.NotNaN) : t.tree.same t.tree = true := by
  match t with
  | .literal value => exact Expr.ofShape_same_self _ (Literal.shape_same_self ht)
  | .function name => exact Expr.ofShape_same_self _ (by simp [Shape.same])
  | .read opcode place =>
    apply Expr.ofShape_same_self
    simpa [Shape.same] using place.access_same_self _ ht
  | .unary operator operand =>
    apply Expr.ofShape_same_self
    simp [Shape.same, Instruction.same_self (Instruction.notNaN_atAddress ht.1 0),
      operand.tree_same_self ht.2]
  | .binary operator left right =>
    apply Expr.ofShape_same_self
    simp [Shape.same, Instruction.same_self (Instruction.notNaN_atAddress ht.1 0),
      left.tree_same_self ht.2.1, right.tree_same_self ht.2.2]
  | .call function arguments =>
    apply Expr.ofShape_same_self
    simp [Shape.same, sameExprs_termTrees arguments ht]
  | .callValue callee self arguments =>
    apply Expr.ofShape_same_self
    simp [Shape.same, callee.tree_same_self ht.1, self.tree_same_self ht.2.1,
      sameExprs_termTrees arguments ht.2.2]
  | .construct callee arguments =>
    apply Expr.ofShape_same_self
    simp [Shape.same, callee.tree_same_self ht.1, sameExprs_termTrees arguments ht.2]
  | .chain logic conditions =>
    apply Expr.ofShape_same_self
    simp [Shape.same, sameExprs_termTrees conditions ht]

/-- An access without a NaN is the same as itself. -/
theorem Place.access_same_self (p : Place) (regularPush : Bool) (hp : p.NotNaN) :
    (p.access regularPush).same (p.access regularPush) = true := by
  match p with
  | .plain target owner =>
    simp [Place.access, Access.same, sameOptionalExprs,
      Expr.ofShape_same_self (.keyword owner) (by simp [Shape.same])]
  | .member target owner marked =>
    simp [Place.access, Access.same, sameOptionalExprs, owner.tree_same_self hp]
  | .element reference target owner marked index =>
    simp [Place.access, Access.same, sameOptionalExprs, sameExprs, owner.tree_same_self hp.1,
      index.tree_same_self hp.2]
  | .cell target owner marked row column product sum =>
    simp [Place.access, Access.same, sameOptionalExprs, sameExprs, owner.tree_same_self hp.1,
      row.tree_same_self hp.2.1, column.tree_same_self hp.2.2]

/-- The trees of terms without a NaN are the same as themselves. -/
theorem sameExprs_termTrees (ts : List Term) (hts : NotNaNTerms ts) :
    sameExprs (termTrees ts) (termTrees ts) = true := by
  match ts with
  | [] => simp [termTrees, sameExprs]
  | t :: ts => simp [termTrees, sameExprs, t.tree_same_self hts.1, sameExprs_termTrees ts hts.2]

end

mutual

/-- The tree of a command without a NaN is the same as itself. -/
theorem Command.tree_same_self (c : Command) (hc : c.NotNaN) : c.tree.same c.tree = true := by
  match c with
  | .assign type1 type2 place value =>
    have htarget := Expr.ofShape_same_self (.access (place.access false))
      (by simpa [Shape.same] using place.access_same_self false hc.1)
    simp [Command.tree, Stmt.same, htarget, value.tree_same_self hc.2]
  | .eval value | .ret value =>
    simp [Command.tree, Stmt.same, value.tree_same_self hc]
  | .exit | .leave | .again => simp [Command.tree, Stmt.same]
  | .branch condition thenPart elsePart =>
    simp [Command.tree, Stmt.same, Block.same, condition.tree_same_self hc.1,
      sameStmts_commandTrees thenPart hc.2.1, sameOptionalBlock_optionalTree elsePart hc.2.2]
  | .loop condition body =>
    simp [Command.tree, Stmt.same, Block.same, condition.tree_same_self hc.1,
      sameStmts_commandTrees body hc.2]
  | .guarded body cleanup =>
    simp [Command.tree, Stmt.same, Block.same, sameStmts_commandTrees body hc.1,
      sameOptionalBlock_optionalTree cleanup hc.2]

/-- The trees of commands without a NaN are the same as themselves. -/
theorem sameStmts_commandTrees (cs : List Command) (hcs : NotNaNCommands cs) :
    sameStmts (commandTrees cs) (commandTrees cs) = true := by
  match cs with
  | [] => simp [commandTrees, sameStmts]
  | c :: cs =>
    simp [commandTrees, sameStmts, c.tree_same_self hcs.1, sameStmts_commandTrees cs hcs.2]

/-- The tree of an optional block without a NaN is the same as itself. -/
theorem sameOptionalBlock_optionalTree (part : Option (List Command))
    (hpart : NotNaNOptional part) :
    sameOptionalBlock (optionalTree part) (optionalTree part) = true := by
  match part with
  | none => simp [optionalTree, sameOptionalBlock]
  | some cs => simp [optionalTree, sameOptionalBlock, Block.same, sameStmts_commandTrees cs hpart]

end

end GmlDecompiler

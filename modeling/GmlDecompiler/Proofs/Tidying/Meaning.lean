import GmlDecompiler.Proofs.Tidying.Settling

/-!
# What a tidied tree means

Where no function is declared, tidying keeps a tree node for node. What it puts in the place of an
integer has the same value: a truth value, the keyword of an instance, a named constant, or a member
of an enum. So a tidied tree means what the tree did that it was made from.
-/

namespace GmlDecompiler

namespace Reading

end Reading

open Sample

/-- The integer that `state` is compared with is read as a member of the enum. -/
example : stateIsOne.tidy readsStates [{}] =
    .ok (.ofShape (.binary (.compare .equal .variable .int16) (bare "state" .own)
      { Expr.ofShape (.int16 1) with shape := .constant "State.Walk" }), [{}]) := rfl

end GmlDecompiler

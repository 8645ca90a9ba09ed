/-!
# Faults

Everything that can go wrong between structured code and text, and how it is said.
-/

namespace GmlDecompiler

/-- What is wrong with an instruction. -/
inductive Defect where
  | callWithoutFunction
  | accessWithoutVariable
  deriving DecidableEq

/-- A construct that takes a condition from the stack. -/
inductive Construct where
  | branch
  | chain
  | loop
  deriving DecidableEq

/-- A jump that needs a loop around it. -/
inductive LoopJump where
  | leave
  | again
  deriving DecidableEq

/-- What a tree should have been. -/
inductive Expected where
  | block
  | structMember
  deriving DecidableEq

/-- What has no text. -/
inductive Unprintable where
  | computedConstructor
  | structStatement
  deriving DecidableEq

/-- What went wrong. -/
inductive Fault where
  /-- An instruction found too few operands. -/
  | stackUnderflow (address : UInt32)
  /-- A duplication does not end on the boundary of a slot. -/
  | dupOverread (requested remaining : Int)
  /-- A region of a swap does not end on the boundary of a slot. -/
  | swapOverread (topRequested topRemaining bottomRequested bottomRemaining : Int)
  /-- An instruction lacks an operand. -/
  | malformed (address : UInt32) (defect : Defect)
  /-- The stack holds no condition. -/
  | missingCondition (construct : Construct)
  /-- A jump has no loop around it. -/
  | strayJump (jump : LoopJump)
  /-- There is no fragment to work in. -/
  | noFragment
  /-- A tree has the wrong form. -/
  | unexpected (expected : Expected)
  /-- A tree has no text. -/
  | unprintable (what : Unprintable)
  /-- An entry failed. -/
  | entry (name : String) (cause : Fault)
  deriving DecidableEq

/-- The defect in words. -/
def Defect.text : Defect → String
  | .callWithoutFunction => "call without a function"
  | .accessWithoutVariable => "variable access without a variable"

/-- The construct in words. -/
def Construct.text : Construct → String
  | .branch => "if"
  | .chain => "short-circuit"
  | .loop => "while"

/-- The jump in words. -/
def LoopJump.text : LoopJump → String
  | .leave => "break"
  | .again => "continue"

/-- The expected form in words. -/
def Expected.text : Expected → String
  | .block => "block"
  | .structMember => "struct member variable"

/-- The unprintable tree in words. -/
def Unprintable.text : Unprintable → String
  | .computedConstructor => "new-object with a computed constructor"
  | .structStatement => "statement inside a struct literal"

/-- The fault in words. -/
def Fault.message : Fault → String
  | .stackUnderflow address => "operand stack underflow at address " ++ toString address.toNat
  | .dupOverread requested remaining =>
    "dup read too much data from stack (" ++ toString requested ++ " -> " ++ toString remaining
      ++ ")"
  | .swapOverread topRequested topRemaining bottomRequested bottomRemaining =>
    "dup swap read too much data from stack (" ++ toString topRequested ++ " -> "
      ++ toString topRemaining ++ ", " ++ toString bottomRequested ++ " -> "
      ++ toString bottomRemaining ++ ")"
  | .malformed address defect =>
    "malformed instruction at address " ++ toString address.toNat ++ ": " ++ defect.text
  | .missingCondition construct => "no condition on the stack for " ++ construct.text
  | .strayJump jump => jump.text ++ " outside of a loop"
  | .noFragment => "no fragment context is active"
  | .unexpected expected => "expected final AST to be a " ++ expected.text
  | .unprintable what => "printing is not implemented for " ++ what.text
  | .entry name cause => "failed to decompile " ++ name ++ ": " ++ cause.message

section

variable {σ α : Type}

/-- A computation that only gives a value succeeds. -/
@[simp] theorem pure_eq_ok (a : α) : (pure a : Except Fault α) = .ok a :=
  rfl

/-- With a state, it leaves the state as it is. -/
@[simp] theorem pure_apply (a : α) (s : σ) :
    (pure a : StateT σ (Except Fault) α) s = .ok (a, s) :=
  rfl

/-- Reading the state leaves it as it is. -/
@[simp] theorem get_apply (s : σ) : (get : StateT σ (Except Fault) σ) s = .ok (s, s) :=
  rfl

/-- A change of the state always succeeds. -/
@[simp] theorem modify_apply (change : σ → σ) (s : σ) :
    (modify change : StateT σ (Except Fault) Unit) s = .ok ((), change s) :=
  rfl

end

end GmlDecompiler

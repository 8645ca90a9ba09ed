import GmlDecompiler.Tree.Equality
import GmlDecompiler.Tree.Fragment

/-!
# The stack machine

Instructions are replayed on a stack of expressions instead of values. An instruction that
computes something replaces its operands by an expression; one that has an effect gives a
statement. Each instruction is an `Action` on the fragment; the machine appends the statements
it gives to the output.
-/

namespace GmlDecompiler

/-- The machine: the fragment it works in and the statements so far. -/
structure Machine where
  /-- The fragment it works in. -/
  fragment : Fragment
  /-- The statements so far. -/
  output : List Stmt := []

/-- A run of slots from the top of a stack. -/
structure Segment where
  /-- The slots, top first. -/
  slots : List Expr
  /-- The slots below. -/
  rest : List Expr
  /-- The bytes asked for less the bytes of the slots: negative if the last slot reaches too
  far. -/
  remaining : Int

/-- The shortest run of slots from the top that has at least as many bytes as asked for. -/
def Segment.take (bytes : Int) : List Expr → Option Segment
  | [] => if 0 < bytes then none else some ⟨[], [], bytes⟩
  | e :: stack =>
    if 0 < bytes then
      (Segment.take (bytes - e.slot.size) stack).map fun s => { s with slots := e :: s.slots }
    else some ⟨[], e :: stack, bytes⟩

/-- Taking a segment splits the stack in two. -/
theorem Segment.slots_append_rest {bytes : Int} {stack : List Expr} {s : Segment}
    (h : Segment.take bytes stack = some s) : s.slots ++ s.rest = stack := by
  induction stack generalizing bytes s with
  | nil =>
    rw [Segment.take] at h
    split at h <;> cases h
    rfl
  | cons e stack ih =>
    rw [Segment.take] at h
    split at h
    · obtain ⟨inner, hinner, rfl⟩ := Option.map_eq_some_iff.1 h
      simp [ih hinner]
    · cases h
      rfl

/-- The literal `0` or `1` as a truth value. -/
def Expr.bit? (e : Expr) : Option Bool :=
  match e.shape with
  | .int16 value => if value = 0 then some false else if value = 1 then some true else none
  | _ => none

/-- A converted expression. A bit converted to or from a truth value was one all along. -/
def Expr.convert (source target : SlotType) (e : Expr) : Expr :=
  match e.bit? with
  | some bit =>
    if source = .int32 ∧ target = .boolean then Expr.ofShape (.boolean bit)
    else if source = .boolean then { Expr.ofShape (.boolean bit) with slot := target }
    else { e with slot := target }
  | none => { e with slot := target }

/-- The expression is the marker for an owner one level further down. -/
def Expr.isStackTopMarker (e : Expr) : Bool :=
  match e.shape with
  | .int16 value => value == Instance.stackTop.raw
  | _ => false

/-- The expression is the constructor of a struct literal. -/
def Expr.isStructConstructor (e : Expr) : Bool :=
  match e.shape with
  | .routine routine => routine.fragment.isStruct
  | _ => false

/-- The two indices of `first * 32000 + second`, the one-dimensional form of a two-dimensional
access. -/
def Expr.rowAndColumn? (e : Expr) : Option (Expr × Expr) :=
  match e.shape with
  | .binary sum ⟨.binary product first stride, _, _, _⟩ second =>
    match stride.shape with
    | .int32 value =>
      if sum.opcode = .add ∧ product.opcode = .multiply ∧ value = Reserved.rowStride then
        some (first, second)
      else none
    | _ => none
  | _ => none

/-- The array indices that an index expression stands for. -/
def Dialect.indices (d : Dialect) (index : Expr) : List Expr :=
  if d.unifiedArrays then [index]
  else
    match index.rowAndColumn? with
    | some (first, second) => [first, second]
    | none => [index]

namespace Instruction

/-- The variable that the instruction accesses. A local one is noted as such. -/
def accessed (i : Instruction) : Action VarRef :=
  match i.target with
  | none => throw (.malformed i.address .accessWithoutVariable)
  | some v => do
    if v.owner = .locals then modify (·.noteLocal v.name)
    return v

/-- An owner taken from the stack, which may be a marker for the real one below it. -/
def popOwner (i : Instruction) : Action Expr := do
  let owner ← Action.pop i.address
  if owner.isStackTopMarker then Action.pop i.address else return owner

/-- The owner that is written when none is on the stack. -/
def ownOwner (i : Instruction) : Expr :=
  Expr.ofShape (.keyword i.owner)

/-- The variable access of a push. -/
def readAccess (d : Dialect) (i : Instruction) : Action Access := do
  let v ← i.accessed
  let regularPush := i.opcode == .push
  if i.owner = .stackTop ∨ i.reference = .stackTop then
    let owner ← i.popOwner
    return ⟨v, i.reference, owner, none, regularPush, none⟩
  else if i.reference = .array then
    let index ← Action.pop i.address
    let owner ← i.popOwner
    return ⟨v, i.reference, owner, some (d.indices index), regularPush, none⟩
  else if i.reference = .multiPush ∨ i.reference = .multiPushPop then
    let index ← Action.pop i.address
    let owner ← i.popOwner
    return ⟨v, i.reference, owner, some [index], regularPush, none⟩
  else return ⟨v, i.reference, i.ownOwner, none, regularPush, none⟩

/-- The variable access of a store to a variable. -/
def writeAccess (d : Dialect) (i : Instruction) (v : VarRef) : Action Access := do
  if i.reference = .stackTop then
    let owner ← i.popOwner
    return ⟨v, i.reference, owner, none, false, none⟩
  else if i.reference = .array then
    let index ← Action.pop i.address
    let owner ← i.popOwner
    return ⟨v, i.reference, owner, some (d.indices index), false, none⟩
  else return ⟨v, i.reference, i.ownOwner, none, false, none⟩

/-- A reference to a function, or the routine itself if it was declared before. -/
def takeFunction (name : String) : Action Shape := fun f =>
  match f.takePending name with
  | some (routine, f) => .ok (.routine routine, f)
  | none => .ok (.function name, f)

/-- What a push instruction pushes. -/
def pushed (d : Dialect) (i : Instruction) : Action Shape :=
  match i.type1 with
  | .int32 =>
    match i.function with
    | none => return .int32 i.int32
    | some name => takeFunction name
  | .string => return .string i.text
  | .double => return .double i.double
  | .int64 => return .int64 i.int64
  | .int16 => return .int16 i.int16
  | .boolean => return .boolean (i.int16 != 0)
  | .variable => do
    let access ← i.readAccess d
    return .access access

/-- The two top slots kept, and slots below them dropped. -/
def popSwap (i : Instruction) : Action Unit := do
  let first ← Action.pop i.address
  let second ← Action.pop i.address
  let _ ← Action.popMany i.address (i.int16.toInt - 4).toNat
  modify fun f => (f.push second).push first

/-- The variable and the value of a store. A 32-bit store finds its value on top, any other
beneath the owner and the index. -/
def popAssignment (d : Dialect) (i : Instruction) : Action (Access × Expr) := do
  let v ← i.accessed
  if i.type1 = .int32 then
    let value ← Action.pop i.address
    let access ← i.writeAccess d v
    return (access, value)
  else
    let access ← i.writeAccess d v
    let value ← Action.pop i.address
    return (access, value)

/-- The value of a store to a slot of some type: a bit stored as a truth value is one. -/
def stored (type : SlotType) (value : Expr) : Expr :=
  match type, value.bit? with
  | .boolean, some bit => Expr.ofShape (.boolean bit)
  | _, _ => value

/-- A store: an assignment, except that a copy of a struct literal's constructor is not worth
one. -/
def store (d : Dialect) (i : Instruction) : Action (List Stmt) := do
  let (access, value) ← i.popAssignment d
  let value := stored i.type2 value
  if value.duplicated && value.isStructConstructor then return []
  else return [.assign (Expr.ofShape (.access access)) value]

/-- The expression that instantiates a constructor: a struct literal if it is one. -/
def instantiate (callee : Expr) (arguments : List Expr) : Shape :=
  match callee.shape with
  | .routine routine =>
    if routine.fragment.isStruct then
      .struct { routine with
        fragment := { routine.fragment with structArguments := some arguments } }
    else .construct callee arguments
  | _ => .construct callee arguments

/-- The routine that a call of `method` with these arguments binds. -/
def boundRoutine? (function : String) : List Expr → Option Expr
  | [_, routine] =>
    match routine.shape with
    | .routine _ => if function = Reserved.method then some routine else none
    | _ => none
  | _ => none

/-- A call of a function by its name. -/
def performCall (i : Instruction) : Action Unit :=
  match i.function with
  | none => throw (.malformed i.address .callWithoutFunction)
  | some function => do
    if function = Reserved.newObject then
      let callee ← Action.pop i.address
      let arguments ← Action.popMany i.address (i.argCount.toNat - 1)
      Action.push (instantiate callee arguments)
    else
      let arguments ← Action.popMany i.address i.argCount.toNat
      if function = Reserved.copyStatic then
        let parentCall ← Action.pop i.address
        modify fun f => { f with parentCall := some parentCall }
      else
        match boundRoutine? function arguments with
        | some routine => modify (·.push routine)
        | none => Action.push (.call function arguments)

/-- A call of a function value: the callee, the instance it is called for, the arguments. -/
def performCallValue (i : Instruction) : Action Unit := do
  let callee ← Action.pop i.address
  let self ← Action.pop i.address
  let arguments ← Action.popMany i.address i.argCount.toNat
  Action.push (.callValue callee self arguments)

/-- A segment of the stack, or an underflow at the instruction. -/
def takeSegment (i : Instruction) (bytes : Int) (stack : List Expr) : Except Fault Segment :=
  match Segment.take bytes stack with
  | some segment => .ok segment
  | none => .error (.stackUnderflow i.address)

/-- Two adjacent regions of the stack exchanged. -/
def swapRegions (i : Instruction) (stack : List Expr) : Except Fault (List Expr) :=
  if i.type1 = .variable ∧ i.dupSize = 0 then .ok stack
  else do
    let topBytes : Int := i.dupSize.toNat * i.type1.size
    let bottomBytes : Int := i.swapSize.toNat * i.type1.size
    let top ← i.takeSegment topBytes stack
    let bottom ← i.takeSegment bottomBytes top.rest
    if top.remaining < 0 ∨ bottom.remaining < 0 then
      .error (.swapOverread topBytes top.remaining bottomBytes bottom.remaining)
    else return bottom.slots ++ top.slots ++ bottom.rest

/-- A region on top of the stack copied, both copies being marked. -/
def copyRegion (i : Instruction) (stack : List Expr) : Except Fault (List Expr) := do
  let bytes : Int := (i.dupSize.toNat + 1) * i.type1.size
  let segment ← i.takeSegment bytes stack
  if segment.remaining < 0 then .error (.dupOverread bytes segment.remaining)
  else
    let copy := segment.slots.map fun e => { e with duplicated := true }
    return copy ++ copy ++ segment.rest

/-- A duplication or a swap. -/
def performDuplicate (i : Instruction) : Action Unit := fun f => do
  let stack ← if i.swapSize = 0 then i.copyRegion f.stack else i.swapRegions f.stack
  return ((), { f with stack := stack })

/-- An extended instruction. -/
def performExtended (i : Instruction) : Action Unit :=
  match i.extOp with
  | some .setArrayOwner => do
    let _ ← Action.pop i.address
  | some .pushReference =>
    match i.function with
    | some name => Action.push (.function name)
    | none => Action.push (.int32 i.int32)
  | _ => return

/-- An operator with two operands. It forgets its address, so that repeated code is the same. -/
def performBinary (i : Instruction) : Action Unit := do
  let right ← Action.pop i.address
  let left ← Action.pop i.address
  Action.push (.binary (i.atAddress 0) left right)

/-- An operator with one operand. -/
def performUnary (i : Instruction) : Action Unit := do
  let operand ← Action.pop i.address
  Action.push (.unary (i.atAddress 0) operand)

/-- The top expression dropped. It becomes a statement unless it is a copy or a variable; on an
empty stack there is nothing to drop. -/
def discard : Action (List Stmt) := fun f =>
  match f.tryPop with
  | none => .ok ([], f)
  | some (e, f) => .ok (if e.duplicated || e.access?.isSome then [] else [.eval e], f)

/-- What an instruction does to the fragment, and the statements that it gives. -/
def perform (d : Dialect) (i : Instruction) : Action (List Stmt) :=
  match i.opcode with
  | .multiply | .divide | .remainder | .modulo | .add | .subtract | .and | .or | .xor
  | .shiftLeft | .shiftRight | .compare => do
    i.performBinary
    return []
  | .negate | .not => do
    i.performUnary
    return []
  | .convert => do
    Action.changeTop i.address (·.convert i.type1 i.type2)
    return []
  | .ret => do
    let value ← Action.pop i.address
    return [.ret value]
  | .exit => return [.exit]
  | .popDelete => discard
  | .call => do
    i.performCall
    return []
  | .callValue => do
    i.performCallValue
    return []
  | .push | .pushLocal | .pushGlobal | .pushBuiltin => do
    let shape ← i.pushed d
    Action.push shape
    return []
  | .pushImmediate => do
    Action.push (.int16 i.int16)
    return []
  | .pop =>
    if i.target.isNone then do
      i.popSwap
      return []
    else i.store d
  | .duplicate => do
    i.performDuplicate
    return []
  | .extended => do
    i.performExtended
    return []
  | .branch | .branchTrue | .branchFalse | .pushContext | .popContext => return []

/-- The instruction ends the routine. -/
def isReturn (i : Instruction) : Bool :=
  i.opcode == .ret || i.opcode == .exit

end Instruction

/-- The output without the copy of the pending cleanup that the compiler puts before an early
return. Only an exact copy is dropped. -/
def Fragment.dropCleanupCopy (f : Fragment) (output : List Stmt) : List Stmt :=
  match f.cleanup? with
  | some copy => dropTrailing copy output
  | none => output

/-- One instruction replayed. -/
def Machine.step (d : Dialect) (m : Machine) (i : Instruction) : Except Fault Machine := do
  let (statements, f) ← i.perform d m.fragment
  let output := if i.isReturn then f.dropCleanupCopy m.output else m.output
  return ⟨f, output ++ statements⟩

end GmlDecompiler

import GmlDecompiler.Fault
import GmlDecompiler.Settings
import GmlDecompiler.Vocabulary

/-!
# Fragments

The operations on the state of one piece of code: its operand stack, its local variables, the
cleanups pending around it, the routines declared in it, and the names of its arguments.
-/

namespace GmlDecompiler

/-- A run of characters occurs in a text. -/
def occursIn (run : List Char) : List Char → Bool
  | [] => run.isEmpty
  | c :: text => run.isPrefixOf (c :: text) || occursIn run text

namespace Naming

/-- The first of `name`, `name_`, `name__`, … that is not taken; `bound` is at least the number
of taken names. -/
def fresh (isTaken : String → Bool) : (bound : Nat) → (name : String) → String
  | 0, name => name
  | bound + 1, name => if isTaken name then fresh isTaken bound (name ++ "_") else name

/-- A name for an argument: the one it has, or else the base name with as many underscores as
keep it apart from the local variables and from other arguments. -/
def resolve (n : Naming) (locals : List String) (index : Nat) (base : String) : String × Naming :=
  match n.byIndex[index]? with
  | some name => (name, n)
  | none =>
    let isTaken := fun name => locals.contains name || n.taken.contains name
    let name := fresh isTaken (locals.length + n.taken.size) base
    (name, ⟨n.byIndex.insert index name, n.taken.insert name⟩)

end Naming

namespace Fragment

/-- The fragment of a piece of code that declares some arguments. -/
def start (codeName : String) (name : Option String) (argCount : UInt16) : Fragment where
  codeName := codeName
  name := name
  maxArgument := Int32.ofNat argCount.toNat - 1

/-- An expression put on the stack. -/
def push (f : Fragment) (e : Expr) : Fragment :=
  { f with stack := e :: f.stack }

/-- The top of the stack taken off. -/
def tryPop (f : Fragment) : Option (Expr × Fragment) :=
  match f.stack with
  | [] => none
  | e :: stack => some (e, { f with stack := stack })

/-- What was put on the stack last is taken off first. -/
@[simp] theorem tryPop_push (f : Fragment) (e : Expr) : (f.push e).tryPop = some (e, f) := by
  cases f
  rfl

/-- Nothing can be taken off exactly if the stack is empty. -/
theorem tryPop_eq_none_iff (f : Fragment) : f.tryPop = none ↔ f.stack = [] := by
  cases h : f.stack <;> simp [tryPop, h]

/-- A local variable, new or known. -/
def addLocal (f : Fragment) (name : String) : Fragment :=
  if f.locals.contains name then f else { f with locals := f.locals ++ [name] }

/-- A local variable forgotten; the others keep their order. -/
def removeLocal (f : Fragment) (name : String) : Fragment :=
  { f with locals := f.locals.filter (· != name) }

/-- Adding a local variable adds it and no other. -/
theorem mem_locals_addLocal (f : Fragment) (name other : String) :
    other ∈ (f.addLocal name).locals ↔ other = name ∨ other ∈ f.locals := by
  by_cases h : f.locals.contains name <;> simp_all [addLocal, or_comm]

/-- Forgetting a local variable forgets it and no other. -/
theorem mem_locals_removeLocal (f : Fragment) (name other : String) :
    other ∈ (f.removeLocal name).locals ↔ other ∈ f.locals ∧ other ≠ name := by
  simp [removeLocal]

/-- A local variable that is not to be declared. -/
def flagForPurge (f : Fragment) (name : String) : Fragment :=
  if f.purge.contains name then f else { f with purge := f.purge ++ [name] }

/-- The flagged local variables forgotten, and the flags with them. -/
def purgeLocals (f : Fragment) : Fragment :=
  { f with locals := f.locals.filter (!f.purge.contains ·), purge := [] }

/-- A local variable that code refers to. The one that the compiler uses for itself is not to be
declared. -/
def noteLocal (f : Fragment) (name : String) : Fragment :=
  if name = Reserved.temporary then (f.addLocal name).flagForPurge name else f.addLocal name

/-- The innermost pending cleanup. -/
def cleanup? (f : Fragment) : Option (List Stmt) :=
  f.cleanups.head?

/-- A cleanup pending. -/
def pushCleanup (f : Fragment) (statements : List Stmt) : Fragment :=
  { f with cleanups := statements :: f.cleanups }

/-- The innermost cleanup no longer pending. -/
def popCleanup (f : Fragment) : Fragment :=
  { f with cleanups := f.cleanups.drop 1 }

/-- The code is the body of a struct literal. -/
def isStruct (f : Fragment) : Bool :=
  occursIn Reserved.structMark.toList f.codeName.toList

/-- A routine put under the name of its code: in place of an earlier one, or last. -/
def putPending (codeName : String) (routine : Routine) :
    List (String × Routine) → List (String × Routine)
  | [] => [(codeName, routine)]
  | (name, other) :: rest =>
    if name = codeName then (name, routine) :: rest
    else (name, other) :: putPending codeName routine rest

/-- A routine declared but not yet used. -/
def addPending (f : Fragment) (codeName : String) (routine : Routine) : Fragment :=
  { f with pending := putPending codeName routine f.pending }

/-- A declared routine taken for use. -/
def takePending (f : Fragment) (codeName : String) : Option (Routine × Fragment) :=
  (f.pending.lookup codeName).map fun routine =>
    (routine, { f with pending := f.pending.filter (·.1 != codeName) })

/-- A routine declared here has this name. -/
def nameRoutine (f : Fragment) (codeName name : String) : Fragment :=
  { f with routineNames := f.routineNames.insert codeName name }

/-- An argument is referred to. -/
def noteArgument (f : Fragment) (index : Nat) : Fragment :=
  { f with maxArgument := max f.maxArgument (Int32.ofNat index) }

/-- The number of parameters that cover all arguments referred to. -/
def parameterCount (f : Fragment) : Nat :=
  (f.maxArgument + 1).toInt.toNat

/-- The name an argument is shown by: the one the game's author gave it, or else the pattern
of the settings, kept apart from other names. -/
def nameArgument (f : Fragment) (names : ArgumentNames) (settings : Settings) (index : Nat) :
    String × Fragment :=
  let base := (names.name? f.codeName index).getD (settings.unknownArgument index)
  let (name, naming) := f.naming.resolve f.locals index base
  (name, { f with naming := naming })

end Fragment

/-- A computation on a fragment, which may fail. -/
abbrev Action (α : Type) := StateT Fragment (Except Fault) α

namespace Action

/-- The top of the stack taken off for the instruction at an address. -/
def pop (address : UInt32) : Action Expr := fun f =>
  match f.tryPop with
  | some result => .ok result
  | none => .error (.stackUnderflow address)

/-- A pop undoes a push. -/
@[simp] theorem pop_push (address : UInt32) (f : Fragment) (e : Expr) :
    pop address (f.push e) = .ok (e, f) := by
  simp [pop]

/-- Several expressions taken off, the top first. -/
def popMany (address : UInt32) (count : Nat) : Action (List Expr) := fun f =>
  if count ≤ f.stack.length then
    .ok (f.stack.take count, { f with stack := f.stack.drop count })
  else .error (.stackUnderflow address)

/-- The condition that a construct takes from the stack. -/
def popCondition (construct : Construct) : Action Expr := fun f =>
  match f.tryPop with
  | some result => .ok result
  | none => .error (.missingCondition construct)

/-- A new expression put on the stack. -/
def push (shape : Shape) : Action Unit :=
  modify (·.push (Expr.ofShape shape))

/-- The top of the stack changed for the instruction at an address. -/
def changeTop (address : UInt32) (change : Expr → Expr) : Action Unit := do
  let e ← pop address
  modify (·.push (change e))

end Action

end GmlDecompiler

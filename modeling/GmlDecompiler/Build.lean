import GmlDecompiler.Machine

/-!
# From structured code to a tree

Each region of structured code becomes a list of statements. Straight code is replayed by the
machine; branches, loops and guarded regions take their conditions from the stack that it
leaves. A nested routine is built in a fragment of its own and stays pending until an
instruction uses it; one that no instruction of its region uses is declared where it stood.
How one instruction is replayed is a parameter, so that what is said about the arrangement of
regions does not depend on the instruction set.
-/

namespace GmlDecompiler

/-- A region while it is being built. -/
structure Draft where
  /-- The fragment the region belongs to. -/
  fragment : Fragment
  /-- The statements so far. -/
  output : List Stmt := []
  /-- The routines declared in the region, last first, with the number of statements before
  each. -/
  declared : List (Nat × String) := []

/-- How one instruction is replayed. -/
abbrev Replay := Machine → Instruction → Except Fault Machine

/-- A computation on a region, which may fail. -/
abbrev Building (α : Type) := StateT Draft (Except Fault) α

namespace Draft

/-- A routine declared in the region. -/
def declare (d : Draft) (header : RoutineHeader) (routine : Routine) : Draft :=
  let f := match header.name with
    | some name => d.fragment.nameRoutine header.codeName name
    | none => d.fragment
  { d with
    fragment := f.addPending header.codeName routine
    declared := (d.output.length, header.codeName) :: d.declared }

/-- A routine that is still pending declared at its position, or at the end if statements
before it were dropped. -/
def settle (result : List Stmt × Fragment) (declared : Nat × String) : List Stmt × Fragment :=
  match result.2.takePending declared.2 with
  | some (routine, f) => (result.1.insertIdx (min declared.1 result.1.length) (.routine routine), f)
  | none => result

/-- The statements of the finished region, from the last declaration to the first. -/
def close (d : Draft) : List Stmt × Fragment :=
  d.declared.foldl settle (d.output, d.fragment)

end Draft

/-- An assignment of a static region declares a static variable. -/
def Stmt.toStatic : Stmt → Stmt
  | .assign target value => .static target value
  | other => other

/-- A finished fragment: compiler-made local variables are forgotten, the others declared at
the top of its statements. -/
def Fragment.finish (f : Fragment) (statements : List Stmt) : List Stmt × Fragment :=
  let f := f.purgeLocals
  (if f.locals.isEmpty then statements else .locals f.locals :: statements, f)

namespace Building

/-- Statements appended to the region. -/
def emit (statements : List Stmt) : Building Unit :=
  modify fun d => { d with output := d.output ++ statements }

/-- A computation on the fragment of the region. -/
def onFragment {α : Type} (action : Action α) : Building α := fun d => do
  let (a, f) ← action d.fragment
  return (a, { d with fragment := f })

/-- Straight code replayed. -/
def replayAll (replay : Replay) (code : List Instruction) : Building Unit := fun d => do
  let m ← code.foldlM replay ⟨d.fragment, d.output⟩
  return ((), { d with fragment := m.fragment, output := m.output })

/-- A region of its own in the same fragment, and the statements it gives. -/
def region (body : Building Unit) : Building (List Stmt) := fun d => do
  let (_, inner) ← body { fragment := d.fragment }
  let (statements, f) := inner.close
  return (statements, { d with fragment := f })

/-- The body of a loop. -/
def inLoop {α : Type} (body : Building α) : Building α := do
  let outer ← get
  modify fun d => { d with fragment := { d.fragment with inLoop := true } }
  let a ← body
  modify fun d => { d with fragment := { d.fragment with inLoop := outer.fragment.inLoop } }
  return a

/-- Code that a cleanup is pending around, if there is one. -/
def guardedBy {α : Type} (cleanup : Option (List Stmt)) (body : Building α) : Building α :=
  match cleanup with
  | none => body
  | some statements => do
    modify fun d => { d with fragment := d.fragment.pushCleanup statements }
    let a ← body
    modify fun d => { d with fragment := d.fragment.popCleanup }
    return a

/-- A nested routine, built in a fragment of its own. -/
def nested (header : RoutineHeader) (body : Building Unit) : Building Unit := fun d => do
  let (_, inner) ← body { fragment := Fragment.start header.codeName header.name header.argCount }
  let (statements, f) := inner.close
  let (statements, f) := f.finish statements
  return ((), d.declare header
    { name := header.name, isConstructor := header.isConstructor, body := ⟨statements, true⟩,
      fragment := f })

/-- A jump, which is allowed only in a loop. -/
def jump (jump : LoopJump) (s : Stmt) : Building Unit := do
  if (← get).fragment.inLoop then emit [s] else throw (.strayJump jump)

end Building

mutual

/-- A node built. -/
def Node.build (replay : Replay) : Node → Building Unit
  | .block code => Building.replayAll replay code.code
  | .branch thenPart elsePart => do
    let condition ← Building.onFragment (Action.popCondition .branch)
    let thenPart ← Building.region (buildNodes replay thenPart)
    let elsePart ← buildOptional replay elsePart
    Building.emit [.branch condition ⟨thenPart, true⟩ (elsePart.map (⟨·, true⟩))]
  | .chain logic conditions => do
    let conditions ← buildConditions replay conditions
    Building.onFragment (Action.push (.chain logic conditions))
  | .loop condition body => do
    let before ← Building.region (buildNodes replay condition)
    Building.emit before
    let condition ← Building.onFragment (Action.popCondition .loop)
    let body ← Building.inLoop (Building.region (buildNodes replay body))
    Building.emit [.loop condition ⟨body, true⟩]
  | .leave => Building.jump .leave .leave
  | .again => Building.jump .again .again
  | .guarded body cleanup => do
    let cleanup ← buildOptional replay cleanup
    let body ← Building.guardedBy cleanup (Building.region (buildNodes replay body))
    Building.emit [.guarded ⟨body, true⟩ (cleanup.map (⟨·, true⟩))]
  | .statics body => do
    let statements ← Building.region (buildNodes replay body)
    Building.emit (statements.map Stmt.toStatic)
  | .routine header body => Building.nested header (buildNodes replay body)

/-- The nodes of a region built one after another. -/
def buildNodes (replay : Replay) : List Node → Building Unit
  | [] => return
  | node :: nodes => do
    node.build replay
    buildNodes replay nodes

/-- A region, if there is one, built. -/
def buildOptional (replay : Replay) : Option (List Node) → Building (Option (List Stmt))
  | none => return none
  | some nodes => do
    let statements ← Building.region (buildNodes replay nodes)
    return some statements

/-- The conditions of a chain. What they do besides goes to the output. -/
def buildConditions (replay : Replay) : List (List Node) → Building (List Expr)
  | [] => return []
  | nodes :: regions => do
    let statements ← Building.region (buildNodes replay nodes)
    Building.emit statements
    let condition ← Building.onFragment (Action.popCondition .chain)
    let conditions ← buildConditions replay regions
    return condition :: conditions

end

/-- The statements of a region, and the fragment after it. -/
def buildRegion (replay : Replay) (nodes : List Node) : Action (List Stmt) := fun f => do
  let (_, d) ← buildNodes replay nodes { fragment := f }
  return d.close

/-- The tree of an entry, and the fragment it was built in. -/
def Entry.build (dialect : Dialect) (entry : Entry) : Except Fault (Block × Fragment) := do
  let (statements, f) ← buildRegion (Machine.step dialect) entry.body
    (Fragment.start entry.name none entry.argCount)
  let (statements, f) := f.finish statements
  return (⟨statements, false⟩, f)

end GmlDecompiler

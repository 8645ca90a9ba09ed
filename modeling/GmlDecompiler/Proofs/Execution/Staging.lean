import GmlDecompiler.Proofs.Building.Declarations
import GmlDecompiler.Proofs.Building.Parts
import GmlDecompiler.Proofs.Execution.Conduct

/-!
# What structured code does

The runs of structured code. The machine says which statements straight code stands for; the nodes
say when they are run. Whatever the region of a loop's condition does is done before every test of
the loop, and whatever a later region of a chain does is done only if the conditions before it do
not decide the chain. A copy of a pending cleanup in front of a return stands for the cleanup
itself, and is not run besides it.

A region is staged: every statement that building it gives is kept together with what the structured
code does in its place. Statements of conditions that have to be repeated or left out are displaced.
If there are none, each statement does what the code does in its place.
-/

namespace GmlDecompiler

/-- A statement that building gives, and what the structured code does in its place. -/
structure Placed where
  /-- The statement. -/
  statement : Stmt
  /-- What the structured code does. -/
  conduct : Conduct

namespace Placed

/-- The structured code does what the statement does. -/
def Faithful (p : Placed) : Prop :=
  p.conduct = p.statement.conduct

/-- A statement that stands where it is run. -/
def own (s : Stmt) : Placed :=
  ⟨s, s.conduct⟩

/-- Statements that together stand for something. It is done at the first of them. -/
def group (conduct : Conduct) : List Stmt → List Placed
  | [] => []
  | s :: ss => ⟨s, conduct⟩ :: ss.map (⟨·, .skip⟩)

/-- An assignment of a static region. -/
def toStatic (p : Placed) : Placed :=
  { p with statement := p.statement.toStatic }

/-- What the structured code does in the place of statements in a row. -/
def inOrder (items : List Placed) : Conduct :=
  items.foldr (fun p rest => p.conduct.andThen rest) .skip

end Placed

/-- A region staged. -/
structure Staged where
  /-- The statements of the region. -/
  items : List Placed
  /-- The fragment after the region. -/
  fragment : Fragment
  /-- The statements of conditions inside it that are displaced. -/
  displaced : List Stmt

namespace Staged

/-- The statements of the region. -/
def statements (r : Staged) : List Stmt :=
  r.items.map Placed.statement

/-- What the structured code does. -/
def conduct (r : Staged) : Conduct :=
  Placed.inOrder r.items

end Staged

/-- The later conditions of a chain staged. -/
structure LaterConditions where
  /-- The conditions. -/
  conditions : List Expr := []
  /-- What their regions give besides. -/
  statements : List Stmt := []
  /-- What is run if the condition before them does not decide the chain. -/
  conduct : Conduct := .skip
  /-- The fragment after them. -/
  fragment : Fragment
  /-- The statements that are displaced. -/
  displaced : List Stmt := []

/-- A region while it is staged. -/
structure Stage where
  /-- The fragment the region belongs to. -/
  fragment : Fragment
  /-- The statements so far. -/
  output : List Placed := []
  /-- The routines declared in the region, last first, with the number of statements before
  each. -/
  declared : List (Nat × String) := []
  /-- The statements that are displaced so far. -/
  displaced : List Stmt := []

namespace Stage

/-- What building the region has come to. -/
def draft (s : Stage) : Draft where
  fragment := s.fragment
  output := s.output.map Placed.statement
  declared := s.declared

/-- Statements appended to the region. -/
def add (s : Stage) (f : Fragment) (items : List Placed) (displaced : List Stmt) : Stage :=
  { s with fragment := f, output := s.output ++ items, displaced := s.displaced ++ displaced }

/-- One instruction replayed. -/
def step (d : Dialect) (s : Stage) (i : Instruction) : Except Fault Stage := do
  let (statements, f) ← i.perform d s.fragment
  let kept := if i.isReturn then (f.dropCleanupCopy s.draft.output).length else s.output.length
  return { s with fragment := f, output := s.output.take kept ++ statements.map .own }

/-- A routine declared in the region. -/
def declare (s : Stage) (header : RoutineHeader) (routine : Routine) : Stage :=
  { s with
    fragment := (s.draft.declare header routine).fragment
    declared := (s.draft.declare header routine).declared }

/-- A routine that is still pending declared at its position. -/
def settle (result : List Placed × Fragment) (declared : Nat × String) : List Placed × Fragment :=
  match result.2.takePending declared.2 with
  | some (routine, f) =>
    (result.1.insertIdx (min declared.1 result.1.length) (.own (.routine routine)), f)
  | none => result

/-- The region when it is finished. -/
def close (s : Stage) : Staged :=
  let (items, f) := s.declared.foldl settle (s.output, s.fragment)
  ⟨items, f, s.displaced⟩

end Stage

mutual

/-- A node staged. -/
def Node.stage (d : Dialect) : Node → Stage → Except Fault Stage
  | .block code, s => code.code.foldlM (Stage.step d) s
  | .branch thenPart none, s => do
    let (condition, f) ← Action.popCondition .branch s.fragment
    let inner := (← stageNodes d thenPart { fragment := f }).close
    return s.add inner.fragment
      [⟨.branch condition ⟨inner.statements, true⟩ none,
        .branch condition inner.conduct .skip⟩] inner.displaced
  | .branch thenPart (some elsePart), s => do
    let (condition, f) ← Action.popCondition .branch s.fragment
    let inner := (← stageNodes d thenPart { fragment := f }).close
    let other := (← stageNodes d elsePart { fragment := inner.fragment }).close
    return s.add other.fragment
      [⟨.branch condition ⟨inner.statements, true⟩ (some ⟨other.statements, true⟩),
        .branch condition inner.conduct other.conduct⟩] (inner.displaced ++ other.displaced)
  | .chain logic [], s =>
    return s.add (s.fragment.push (.ofShape (.chain logic []))) [] []
  | .chain logic (nodes :: regions), s => do
    let first := (← stageNodes d nodes { fragment := s.fragment }).close
    let (condition, f) ← Action.popCondition .chain first.fragment
    let later ← stageLater d logic regions f
    return s.add (later.fragment.push (.ofShape (.chain logic (condition :: later.conditions))))
      (first.items ++
        Placed.group (.unlessDecided logic condition later.conduct) later.statements)
      (first.displaced ++ later.displaced)
  | .loop conditionPart body, s => do
    let before := (← stageNodes d conditionPart { fragment := s.fragment }).close
    let (condition, f) ← Action.popCondition .loop before.fragment
    let inner := (← stageNodes d body { fragment := { f with inLoop := true } }).close
    return s.add { inner.fragment with inLoop := f.inLoop }
      (Placed.group (.rounds before.conduct condition inner.conduct)
        (before.statements ++ [.loop condition ⟨inner.statements, true⟩]))
      (before.statements ++ before.displaced ++ inner.displaced)
  | .leave, s =>
    if s.fragment.inLoop then .ok (s.add s.fragment [.own .leave] []) else .error (.strayJump .leave)
  | .again, s =>
    if s.fragment.inLoop then .ok (s.add s.fragment [.own .again] []) else .error (.strayJump .again)
  | .guarded body none, s => do
    let inner := (← stageNodes d body { fragment := s.fragment }).close
    return s.add inner.fragment
      [⟨.guarded ⟨inner.statements, true⟩ none, .guarded inner.conduct .skip⟩] inner.displaced
  | .guarded body (some cleanupPart), s => do
    let cleanup := (← stageNodes d cleanupPart { fragment := s.fragment }).close
    let inner := (← stageNodes d body
      { fragment := cleanup.fragment.pushCleanup cleanup.statements }).close
    return s.add inner.fragment.popCleanup
      [⟨.guarded ⟨inner.statements, true⟩ (some ⟨cleanup.statements, true⟩),
        .guarded inner.conduct cleanup.conduct⟩] (cleanup.displaced ++ inner.displaced)
  | .statics body, s => do
    let inner := (← stageNodes d body { fragment := s.fragment }).close
    return s.add inner.fragment (inner.items.map Placed.toStatic) inner.displaced
  | .routine header body, s => do
    let routine ← buildRoutine (Machine.step d) header body
    return s.declare header routine

/-- The nodes of a region staged one after another. -/
def stageNodes (d : Dialect) : List Node → Stage → Except Fault Stage
  | [], s => return s
  | node :: nodes, s => do
    let s ← node.stage d s
    stageNodes d nodes s

/-- The later conditions of a chain staged. -/
def stageLater (d : Dialect) (logic : Logic) : List (List Node) → Fragment →
    Except Fault LaterConditions
  | [], f => return { fragment := f }
  | nodes :: regions, f => do
    let region := (← stageNodes d nodes { fragment := f }).close
    let (condition, f) ← Action.popCondition .chain region.fragment
    let rest ← stageLater d logic regions f
    return { conditions := condition :: rest.conditions
             statements := region.statements ++ rest.statements
             conduct := region.conduct.andThen (.unlessDecided logic condition rest.conduct)
             fragment := rest.fragment
             displaced := region.statements ++ region.displaced ++ rest.displaced }

end

/-- A region staged. -/
def stageRegion (d : Dialect) (nodes : List Node) (f : Fragment) : Except Fault Staged := do
  let s ← stageNodes d nodes { fragment := f }
  return s.close

end GmlDecompiler

import GmlDecompiler.Build

/-!
# Fragments on a stack

A nested routine is built in a fragment of its own, which nothing of the fragments around it gets
into. The same can be done on one stack of fragments: the fragment of a nested routine is put on
top, its body is built there, and it is taken off again. Whatever is built in this way is built as
before on the top fragment, and the fragments below are left alone.
-/

namespace GmlDecompiler

/-- A region while it is being built, with the fragments around its own one. -/
structure StackDraft where
  /-- The fragment that the region belongs to, and those around it, innermost first. -/
  fragments : List Fragment
  /-- The statements so far. -/
  output : List Stmt := []
  /-- The routines declared in the region, last first, with the number of statements before
  each. -/
  declared : List (Nat × String) := []

/-- A computation on a region and the fragments around it, which may fail. -/
abbrev Stacked (α : Type) := StateT StackDraft (Except Fault) α

/-- The region, put on top of other fragments. -/
def Draft.onto (d : Draft) (outer : List Fragment) : StackDraft :=
  ⟨d.fragment :: outer, d.output, d.declared⟩

/-- The statements of the finished region, and the fragments after it. -/
def StackDraft.close (s : StackDraft) : Except Fault (List Stmt × List Fragment) :=
  match s.fragments with
  | [] => .error .noFragment
  | f :: outer =>
    let (statements, f) := Draft.close ⟨f, s.output, s.declared⟩
    .ok (statements, f :: outer)

namespace Stacked

/-- A computation on the region, in the top fragment. -/
def onTop {α : Type} (x : Building α) : Stacked α := fun s =>
  match s.fragments with
  | [] => .error .noFragment
  | f :: outer => do
    let (a, d) ← x ⟨f, s.output, s.declared⟩
    return (a, d.onto outer)

/-- A region of its own in the top fragment, and the statements it gives. -/
def region (body : Stacked Unit) : Stacked (List Stmt) := fun s => do
  let (_, inner) ← body { fragments := s.fragments }
  let (statements, fragments) ← inner.close
  return (statements, { s with fragments := fragments })

/-- The body of a loop. -/
def inLoop {α : Type} (body : Stacked α) : Stacked α := do
  let outer ← onTop get
  onTop (modify fun d => { d with fragment := { d.fragment with inLoop := true } })
  let a ← body
  onTop (modify fun d => { d with fragment := { d.fragment with inLoop := outer.fragment.inLoop } })
  return a

/-- Code that a cleanup is pending around, if there is one. -/
def guardedBy {α : Type} (cleanup : Option (List Stmt)) (body : Stacked α) : Stacked α :=
  match cleanup with
  | none => body
  | some statements => do
    onTop (modify fun d => { d with fragment := d.fragment.pushCleanup statements })
    let a ← body
    onTop (modify fun d => { d with fragment := d.fragment.popCleanup })
    return a

/-- A nested routine: its fragment is put on top, and taken off when its body is built. -/
def nested (header : RoutineHeader) (body : Stacked Unit) : Stacked Unit := fun s => do
  let start := Fragment.start header.codeName header.name header.argCount
  let (_, inner) ← body { fragments := start :: s.fragments }
  let (statements, fragments) ← inner.close
  match fragments with
  | [] => .error .noFragment
  | f :: outer =>
    let (statements, f) := f.finish statements
    onTop (modify (·.declare header
        { name := header.name, isConstructor := header.isConstructor,
          body := ⟨statements, true⟩, fragment := f }))
      { s with fragments := outer }

end Stacked

mutual

/-- A node built on a stack of fragments. -/
def Node.buildOn (replay : Replay) : Node → Stacked Unit
  | .block code => Stacked.onTop (Building.replayAll replay code.code)
  | .branch thenPart elsePart => do
    let condition ← Stacked.onTop (Building.onFragment (Action.popCondition .branch))
    let thenPart ← Stacked.region (buildNodesOn replay thenPart)
    let elsePart ← buildOptionalOn replay elsePart
    Stacked.onTop
      (Building.emit [.branch condition ⟨thenPart, true⟩ (elsePart.map (⟨·, true⟩))])
  | .chain logic conditions => do
    let conditions ← buildConditionsOn replay conditions
    Stacked.onTop (Building.onFragment (Action.push (.chain logic conditions)))
  | .loop condition body => do
    let before ← Stacked.region (buildNodesOn replay condition)
    Stacked.onTop (Building.emit before)
    let condition ← Stacked.onTop (Building.onFragment (Action.popCondition .loop))
    let body ← Stacked.inLoop (Stacked.region (buildNodesOn replay body))
    Stacked.onTop (Building.emit [.loop condition ⟨body, true⟩])
  | .leave => Stacked.onTop (Building.jump .leave .leave)
  | .again => Stacked.onTop (Building.jump .again .again)
  | .guarded body cleanup => do
    let cleanup ← buildOptionalOn replay cleanup
    let body ← Stacked.guardedBy cleanup (Stacked.region (buildNodesOn replay body))
    Stacked.onTop (Building.emit [.guarded ⟨body, true⟩ (cleanup.map (⟨·, true⟩))])
  | .statics body => do
    let statements ← Stacked.region (buildNodesOn replay body)
    Stacked.onTop (Building.emit (statements.map Stmt.toStatic))
  | .routine header body => Stacked.nested header (buildNodesOn replay body)

/-- The nodes of a region built one after another on a stack of fragments. -/
def buildNodesOn (replay : Replay) : List Node → Stacked Unit
  | [] => return
  | node :: nodes => do
    node.buildOn replay
    buildNodesOn replay nodes

/-- A region, if there is one, built on a stack of fragments. -/
def buildOptionalOn (replay : Replay) : Option (List Node) → Stacked (Option (List Stmt))
  | none => return none
  | some nodes => do
    let statements ← Stacked.region (buildNodesOn replay nodes)
    return some statements

/-- The conditions of a chain built on a stack of fragments. -/
def buildConditionsOn (replay : Replay) : List (List Node) → Stacked (List Expr)
  | [] => return []
  | nodes :: regions => do
    let statements ← Stacked.region (buildNodesOn replay nodes)
    Stacked.onTop (Building.emit statements)
    let condition ← Stacked.onTop (Building.onFragment (Action.popCondition .chain))
    let conditions ← buildConditionsOn replay regions
    return condition :: conditions

end

/-- The statements of a region, and the fragments after it. -/
def buildRegionOn (replay : Replay) (nodes : List Node) (fragments : List Fragment) :
    Except Fault (List Stmt × List Fragment) := do
  let (_, s) ← buildNodesOn replay nodes { fragments := fragments }
  s.close

/-- The computation on a stack does on the top fragment what the other one does, and nothing to
the fragments below. -/
def Lifts {α : Type} (x : Stacked α) (y : Building α) : Prop :=
  ∀ (d : Draft) (outer : List Fragment),
    x (d.onto outer) = (y d).map fun (a, d') => (a, d'.onto outer)

namespace Lifts

variable {α β : Type}

/-- A computation on the top fragment is the computation that it does there. -/
theorem onTop (y : Building α) : Lifts (Stacked.onTop y) y := by
  intro d outer
  change (y d >>= fun (a, d') => pure (a, d'.onto outer)) = _
  cases y d with
  | error fault => rfl
  | ok result => rfl

/-- Giving a value does not touch the stack. -/
theorem pure (a : α) : Lifts (pure a) (pure a) :=
  fun _ _ => rfl

/-- Computations in a row lift if each one does: the fragments below are the same in between. -/
theorem bind {x : Stacked α} {y : Building α} {k : α → Stacked β} {l : α → Building β}
    (hxy : Lifts x y) (hkl : ∀ a, Lifts (k a) (l a)) : Lifts (x >>= k) (y >>= l) := by
  intro d outer
  have hfirst := hxy d outer
  simp only [Bind.bind, StateT.bind, hfirst]
  cases y d with
  | error fault => rfl
  | ok result => exact hkl result.1 result.2 outer

/-- A region of its own in the top fragment. It starts without statements in both cases. -/
theorem region {x : Stacked Unit} {y : Building Unit} (hxy : Lifts x y) :
    Lifts (Stacked.region x) (Building.region y) := by
  intro d outer
  have hbody := hxy { fragment := d.fragment } outer
  simp only [Draft.onto] at hbody
  simp only [Stacked.region, Building.region, Draft.onto, hbody]
  cases y { fragment := d.fragment } with
  | error fault => rfl
  | ok result => rfl

/-- The body of a loop: the mark is set and put back in the top fragment. -/
theorem inLoop {x : Stacked α} {y : Building α} (hxy : Lifts x y) :
    Lifts (Stacked.inLoop x) (Building.inLoop y) := by
  refine .bind (.onTop get) fun outer => ?_
  refine .bind (.onTop (modify _)) fun _ => ?_
  refine .bind hxy fun a => ?_
  refine .bind (.onTop (modify _)) fun _ => ?_
  exact .pure a

/-- Code that a cleanup is pending around: the cleanup is pending in the top fragment. -/
theorem guardedBy {x : Stacked α} {y : Building α} (hxy : Lifts x y)
    (cleanup : Option (List Stmt)) :
    Lifts (Stacked.guardedBy cleanup x) (Building.guardedBy cleanup y) := by
  cases cleanup with
  | none => exact hxy
  | some statements =>
    refine .bind (.onTop (modify _)) fun _ => ?_
    refine .bind hxy fun a => ?_
    refine .bind (.onTop (modify _)) fun _ => ?_
    exact .pure a

/-- What is put on top for a nested routine is taken off again. -/
theorem nested {x : Stacked Unit} {y : Building Unit} (hxy : Lifts x y)
    (header : RoutineHeader) : Lifts (Stacked.nested header x) (Building.nested header y) := by
  intro d outer
  have hbody := hxy { fragment := Fragment.start header.codeName header.name header.argCount }
    (d.fragment :: outer)
  simp only [Draft.onto] at hbody
  simp only [Stacked.nested, Building.nested, Draft.onto, hbody]
  cases y { fragment := Fragment.start header.codeName header.name header.argCount } with
  | error fault => rfl
  | ok result => rfl

end Lifts

mutual

/-- A node is built on a stack as it is built on the top fragment. -/
theorem Node.buildOn_lifts (replay : Replay) (n : Node) :
    Lifts (n.buildOn replay) (n.build replay) := by
  match n with
  | .block code => exact .onTop _
  | .branch thenPart elsePart =>
    have hthen := Lifts.region (buildNodesOn_lifts replay thenPart)
    refine .bind (.onTop _) fun condition => ?_
    refine .bind hthen fun thenBlock => ?_
    exact .bind (buildOptionalOn_lifts replay elsePart) fun _ => .onTop _
  | .chain logic conditions =>
    exact .bind (buildConditionsOn_lifts replay conditions) fun _ => .onTop _
  | .loop condition body =>
    have hbody := Lifts.region (buildNodesOn_lifts replay body)
    refine .bind (.region (buildNodesOn_lifts replay condition)) fun before => ?_
    refine .bind (.onTop _) fun test => ?_
    refine .bind (.onTop _) fun _ => ?_
    exact .bind (.inLoop hbody) fun _ => .onTop _
  | .leave => exact .onTop _
  | .again => exact .onTop _
  | .guarded body cleanup =>
    refine .bind (buildOptionalOn_lifts replay cleanup) fun after => ?_
    exact .bind (.guardedBy (.region (buildNodesOn_lifts replay body)) after) fun _ => .onTop _
  | .statics body =>
    exact .bind (.region (buildNodesOn_lifts replay body)) fun _ => .onTop _
  | .routine header body => exact .nested (buildNodesOn_lifts replay body) header

/-- The nodes of a region are built on a stack as they are built on the top fragment. -/
theorem buildNodesOn_lifts (replay : Replay) (nodes : List Node) :
    Lifts (buildNodesOn replay nodes) (buildNodes replay nodes) := by
  match nodes with
  | [] => exact .pure _
  | n :: nodes => exact .bind (n.buildOn_lifts replay) fun _ => buildNodesOn_lifts replay nodes

/-- A region, if there is one, is built on a stack as on the top fragment. -/
theorem buildOptionalOn_lifts (replay : Replay) (part : Option (List Node)) :
    Lifts (buildOptionalOn replay part) (buildOptional replay part) := by
  match part with
  | none => exact .pure _
  | some nodes => exact .bind (.region (buildNodesOn_lifts replay nodes)) fun _ => .pure _

/-- The conditions of a chain are built on a stack as on the top fragment. -/
theorem buildConditionsOn_lifts (replay : Replay) (regions : List (List Node)) :
    Lifts (buildConditionsOn replay regions) (buildConditions replay regions) := by
  match regions with
  | [] => exact .pure _
  | nodes :: regions =>
    refine .bind (.region (buildNodesOn_lifts replay nodes)) fun before => ?_
    refine .bind (.onTop _) fun condition => ?_
    refine .bind (.onTop _) fun _ => ?_
    exact .bind (buildConditionsOn_lifts replay regions) fun _ => .pure _

end

/-- A region is built on a stack as it is built on the top fragment, and the fragments below are
as they were. -/
theorem buildRegionOn_eq (replay : Replay) (nodes : List Node) (f : Fragment)
    (outer : List Fragment) :
    buildRegionOn replay nodes (f :: outer) =
      (buildRegion replay nodes f).map (Prod.map id (· :: outer)) := by
  have hnodes := buildNodesOn_lifts replay nodes { fragment := f } outer
  simp only [Draft.onto] at hnodes
  simp only [buildRegionOn, buildRegion, hnodes, bind, Except.bind]
  cases buildNodes replay nodes { fragment := f } with
  | error fault => rfl
  | ok result => rfl

/-- An entry built on a stack of fragments: its own fragment is put on the empty stack, and taken
off when the body is built. -/
def Entry.buildOn (dialect : Dialect) (entry : Entry) : Except Fault (Block × Fragment) := do
  let start := Fragment.start entry.name none entry.argCount
  let (statements, fragments) ← buildRegionOn (Machine.step dialect) entry.body [start]
  match fragments with
  | [] => .error .noFragment
  | f :: _ =>
    let (statements, f) := f.finish statements
    return (⟨statements, false⟩, f)

/-- An entry is built on a stack as it is built without one. So the stack is never empty when a
fragment is asked for. -/
theorem Entry.buildOn_eq (dialect : Dialect) (entry : Entry) :
    entry.buildOn dialect = entry.build dialect := by
  let start := Fragment.start entry.name none entry.argCount
  have hregion := buildRegionOn_eq (Machine.step dialect) entry.body start []
  simp only [start] at hregion
  simp only [buildOn, build, hregion, bind, Except.bind]
  cases buildRegion (Machine.step dialect) entry.body
      (Fragment.start entry.name none entry.argCount) with
  | error fault => rfl
  | ok result => rfl

end GmlDecompiler

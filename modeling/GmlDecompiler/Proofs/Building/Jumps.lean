import GmlDecompiler.Proofs.Building.Functions

/-!
# Jumps in structured code

A jump needs a loop around it, in its own fragment and with the jump in its body. Code with a jump
that has no such loop is not built.
-/

namespace GmlDecompiler

mutual

/-- Every jump in a node lies in the body of a loop of its own fragment. `looped` tells whether the
node itself does. -/
def Node.jumpsFit (looped : Bool) : Node → Bool
  | .block _ => true
  | .branch thenPart elsePart => nodesJumpsFit looped thenPart && optionalJumpsFit looped elsePart
  | .chain _ conditions => regionsJumpsFit looped conditions
  | .loop condition body => nodesJumpsFit looped condition && nodesJumpsFit true body
  | .leave => looped
  | .again => looped
  | .guarded body cleanup => nodesJumpsFit looped body && optionalJumpsFit looped cleanup
  | .statics body => nodesJumpsFit looped body
  | .routine _ body => nodesJumpsFit false body

/-- Every jump in a region lies in the body of a loop of its own fragment. -/
def nodesJumpsFit (looped : Bool) : List Node → Bool
  | [] => true
  | n :: nodes => n.jumpsFit looped && nodesJumpsFit looped nodes

/-- Every jump in a region, if there is one, lies in the body of a loop of its own fragment. -/
def optionalJumpsFit (looped : Bool) : Option (List Node) → Bool
  | none => true
  | some nodes => nodesJumpsFit looped nodes

/-- Every jump in some regions lies in the body of a loop of its own fragment. -/
def regionsJumpsFit (looped : Bool) : List (List Node) → Bool
  | [] => true
  | nodes :: regions => nodesJumpsFit looped nodes && regionsJumpsFit looped regions

end

/-- Every jump of an entry lies in the body of a loop of its own fragment. -/
def Entry.jumpsFit (entry : Entry) : Bool :=
  nodesJumpsFit false entry.body

section Built

variable {dialect : Dialect}

/-- If the region is built, its jumps fit. -/
def JumpsFitIfBuilt (dialect : Dialect) (nodes : List Node) : Prop :=
  ∀ f ss f', buildRegion (Machine.step dialect) nodes f = .ok (ss, f') →
    nodesJumpsFit f.inLoop nodes = true

/-- The conditions of a chain are built one after another, in the same loop each. -/
theorem ConditionsGive.jumpsFit {regions : List (List Node)} {f f' : Fragment} {es : List Expr}
    {ss : List Stmt} (hgive : ConditionsGive (Machine.step dialect) regions f es ss f')
    (hregions : ∀ nodes ∈ regions, JumpsFitIfBuilt dialect nodes) :
    regionsJumpsFit f.inLoop regions = true := by
  induction hgive with
  | nil => rfl
  | cons hregion hpop _ ih =>
    obtain ⟨hfirst, hregions⟩ := List.forall_mem_cons.mp hregions
    have hrest := ih hregions
    rw [inLoop_popCondition hpop, inLoop_buildRegion hregion] at hrest
    rw [regionsJumpsFit, hfirst _ _ _ hregion, hrest]
    rfl

/-- A node that is neither straight code nor a routine is built only if its jumps fit. -/
theorem Node.Gives.jumpsFit {n : Node} {f f' : Fragment} {ss : List Stmt}
    (hgives : n.Gives (Machine.step dialect) f ss f')
    (hregions : ∀ nodes ∈ n.regions true, JumpsFitIfBuilt dialect nodes) :
    n.jumpsFit f.inLoop = true := by
  cases hgives with
  | branch hpop hthen =>
    have hfit := hregions _ List.mem_cons_self _ _ _ hthen
    rw [inLoop_popCondition hpop] at hfit
    rw [Node.jumpsFit, hfit]
    rfl
  | branchElse hpop hthen helse =>
    obtain ⟨hfirst, hsecond⟩ := List.forall_mem_cons.mp hregions
    have hfit := hfirst _ _ _ hthen
    have hfit' := hsecond _ List.mem_cons_self _ _ _ helse
    rw [inLoop_buildRegion hthen, inLoop_popCondition hpop] at hfit'
    rw [inLoop_popCondition hpop] at hfit
    rw [Node.jumpsFit, hfit, optionalJumpsFit, hfit']
    rfl
  | chain hgive => exact hgive.jumpsFit hregions
  | loop hcondition hpop hbody =>
    obtain ⟨hfirst, hsecond⟩ := List.forall_mem_cons.mp hregions
    have hbodyFit : nodesJumpsFit true _ = true := hsecond _ List.mem_cons_self _ _ _ hbody
    rw [Node.jumpsFit, hfirst _ _ _ hcondition, hbodyFit]
    rfl
  | leave hloop | again hloop => exact hloop
  | guarded hbody =>
    rw [Node.jumpsFit, hregions _ List.mem_cons_self _ _ _ hbody]
    rfl
  | guardedCleanup hcleanup hbody =>
    obtain ⟨hfirst, hsecond⟩ := List.forall_mem_cons.mp hregions
    have hfit : nodesJumpsFit _ _ = true := hsecond _ List.mem_cons_self _ _ _ hbody
    rw [Fragment.inLoop_pushCleanup, inLoop_buildRegion hcleanup] at hfit
    rw [Node.jumpsFit, hfit, optionalJumpsFit, hfirst _ _ _ hcleanup]
    rfl
  | statics hbody => exact hregions _ List.mem_cons_self _ _ _ hbody

/-- A node is built only if its jumps fit. -/
theorem Node.Moves.jumpsFit {n : Node} {d d' : Draft}
    (hmoves : n.Moves (Machine.step dialect) d d')
    (hregions : ∀ nodes ∈ n.regions true, JumpsFitIfBuilt dialect nodes) :
    n.jumpsFit d.fragment.inLoop = true := by
  cases hmoves with
  | block hfold => rfl
  | gives hgives => exact hgives.jumpsFit hregions
  | routine hbuilt =>
    obtain ⟨ss, f, hregion, -⟩ := buildRoutine_eq_ok hbuilt
    exact hregions _ List.mem_cons_self _ _ _ hregion

/-- A region is built only if its jumps fit. -/
theorem jumpsFitIfBuilt (nodes : List Node) : JumpsFitIfBuilt dialect nodes := by
  induction nodes using regions_induction with
  | step nodes ih =>
    intro f ss f' hregion
    obtain ⟨last, hrun, -⟩ := buildRegion_eq_ok hregion
    suffices hall : ∀ d : Draft, buildNodes (Machine.step dialect) nodes d = .ok ((), last) →
        nodesJumpsFit d.fragment.inLoop nodes = true from hall { fragment := f } hrun
    clear hrun hregion
    induction nodes with
    | nil => exact fun _ _ => rfl
    | cons n nodes ihnodes =>
      intro d hrun
      obtain ⟨middle, hmoves, hrest⟩ := buildNodes_cons_eq_ok hrun
      obtain ⟨hfirst, hothers⟩ := List.forall_mem_cons.mp ih
      have hlater := ihnodes hothers middle hrest
      rw [hmoves.inLoop_eq] at hlater
      rw [nodesJumpsFit, hmoves.jumpsFit hfirst, hlater]
      rfl

/-- An entry is built only if its jumps fit. -/
theorem Entry.jumpsFit_of_build {entry : Entry} {built : Block × Fragment}
    (hbuild : entry.build dialect = .ok built) : entry.jumpsFit = true := by
  obtain ⟨⟨ss, f⟩, hregion, -⟩ := exists_of_bind_eq_ok hbuild
  exact jumpsFitIfBuilt entry.body _ ss f hregion

/-- Every jump in a statement, outside of the functions nested in it, lies in the body of a loop of
the same function. `looped` tells whether the statement itself does. -/
def Stmt.JumpsFit (looped : Bool) (s : Stmt) : Prop :=
  s.Throughout (fun looped t => t.isJump = true → looped = true) looped

/-- Every jump of a function, outside of the functions nested in it, lies in the body of a loop. -/
def Routine.JumpsFit (r : Routine) : Prop :=
  ∀ s ∈ r.body.statements, s.JumpsFit false

/-- A statement that is no jump and has no statements in it has jumps that fit. -/
theorem Stmt.JumpsFit.leaf {s : Stmt} (hjump : s.isJump = false) (hinner : s.inner = [])
    (looped : Bool) : s.JumpsFit looped := by
  refine .intro ?_ ?_
  · rw [hjump]
    exact nofun
  · rw [hinner]
    exact List.forall_mem_nil _

/-- The jumps of a routine that was built lie in the bodies of loops. -/
theorem jumpsFit_buildRoutine {header : RoutineHeader} {body : List Node} {r : Routine}
    (hrun : buildRoutine (Machine.step dialect) header body = .ok r) : r.JumpsFit := by
  obtain ⟨rest, hstatements, hrest⟩ := buildRoutine_throughout hrun
  unfold Routine.JumpsFit
  rw [hstatements]
  refine List.forall_mem_append.mpr ⟨fun s hs => ?_, fun s hs => ?_⟩
  · rw [eq_of_mem_localsDeclaration hs]
    exact .leaf rfl rfl false
  · exact (hrest s hs).mono fun _ _ hfits => hfits.looped

/-- The jumps in the tree of an entry lie in the bodies of loops of the same function. -/
theorem Entry.build_jumpsFit {entry : Entry} {block : Block} {f : Fragment}
    (hbuild : entry.build dialect = .ok (block, f)) :
    ∀ s ∈ block.statements, s.JumpsFit false ∧ s.AllFunctions Routine.JumpsFit := by
  obtain ⟨r, hrun, hstatements, -⟩ := entry.build_eq_ok hbuild
  intro s hs
  refine ⟨jumpsFit_buildRoutine hrun s (hstatements ▸ hs), ?_⟩
  exact Entry.build_allFunctions (fun _ _ hfits => hfits)
    (fun _ _ _ hbuilt => jumpsFit_buildRoutine hbuilt) hbuild s hs

end Built

end GmlDecompiler

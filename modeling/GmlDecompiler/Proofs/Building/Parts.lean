import GmlDecompiler.Proofs.Building.Regions
import GmlDecompiler.Proofs.Codegen.Replay
import GmlDecompiler.Tidy
import Mathlib.Tactic.Tauto

/-!
# What trees inherit from their parts

A tree that is built is made of expressions on the stack, of routines that are pending and of
statements that were given before. A property of trees that an expression has if its parts have it,
and that a statement has if its parts have it and it may stand where it is given, is therefore a
property of every tree that is built, as soon as the routines nested in the code have it.
-/

namespace GmlDecompiler

/-- The expressions right inside a shape: for a struct literal, the values that it is made from. -/
def Shape.parts : Shape → List Expr
  | .access a => a.owner :: a.indices.getD []
  | .unary _ operand => [operand]
  | .binary _ left right => [left, right]
  | .call _ arguments => arguments
  | .callValue callee self arguments => callee :: self :: arguments
  | .construct callee arguments => callee :: arguments
  | .chain _ conditions => conditions
  | .struct r => r.fragment.structArguments.getD []
  | .int16 _ | .int32 _ | .int64 _ | .double _ | .string _ | .boolean _ | .keyword _
  | .function _ | .constant _ | .routine _ => []

/-- The routine that a shape is, or that a struct literal is made by. -/
def Shape.routine? : Shape → Option Routine
  | .routine r | .struct r => some r
  | .int16 _ | .int32 _ | .int64 _ | .double _ | .string _ | .boolean _ | .keyword _
  | .function _ | .constant _ | .access _ | .unary _ _ | .binary _ _ _ | .call _ _
  | .callValue _ _ _ | .construct _ _ | .chain _ _ => none

/-- The routine with values for its struct arguments. -/
def Routine.withValues (r : Routine) (values : Option (List Expr)) : Routine :=
  { r with fragment := { r.fragment with structArguments := values } }

/-- A routine with the values that it has is itself. -/
theorem Routine.withValues_self (r : Routine) :
    r.withValues r.fragment.structArguments = r := by
  obtain ⟨_, _, _, fragment, _, _, _, _⟩ := r
  cases fragment
  rfl

namespace Stmt

/-- The expressions right inside a statement. -/
def exprs : Stmt → List Expr
  | .eval value | .ret value => [value]
  | .assign target value | .static target value => [target, value]
  | .branch condition _ _ | .loop condition _ => [condition]
  | .block _ | .exit | .leave | .again | .guarded _ _ | .locals _ | .routine _ | .enum _ => []

/-- The statements right inside a statement. -/
def inner : Stmt → List Stmt
  | .block body => body.statements
  | .branch _ thenPart elsePart => thenPart.statements ++ (elsePart.map (·.statements)).getD []
  | .loop _ body => body.statements
  | .guarded body cleanup => body.statements ++ (cleanup.map (·.statements)).getD []
  | .eval _ | .assign _ _ | .static _ _ | .ret _ | .exit | .leave | .again | .locals _
  | .routine _ | .enum _ => []

/-- The routine that a statement declares. -/
def routine? : Stmt → Option Routine
  | .routine r => some r
  | .block _ | .eval _ | .assign _ _ | .static _ _ | .ret _ | .exit | .leave | .again
  | .branch _ _ _ | .loop _ _ | .guarded _ _ | .locals _ | .enum _ => none

/-- The statement is a loop. -/
def isLoop : Stmt → Bool
  | .loop _ _ => true
  | .block _ | .eval _ | .assign _ _ | .static _ _ | .ret _ | .exit | .leave | .again
  | .branch _ _ _ | .guarded _ _ | .locals _ | .routine _ | .enum _ => false

/-- The statement is a jump, which needs a loop around it. -/
def isJump : Stmt → Bool
  | .leave | .again => true
  | .block _ | .eval _ | .assign _ _ | .static _ _ | .ret _ | .exit | .branch _ _ _ | .loop _ _
  | .guarded _ _ | .locals _ | .routine _ | .enum _ => false

/-- The statement may be given by code: it declares no local variables, and it jumps only in a
loop. -/
structure Fits (looped : Bool) (s : Stmt) : Prop where
  isLocals : s.isLocals = false
  looped : s.isJump = true → looped = true

end Stmt

/-- A property `E` of expressions and a property `S` of statements in or outside of a loop that are
passed on by the parts. A routine has to be `declared`, and one that makes a struct literal to be a
`literal`. -/
structure Inherited (E : Expr → Prop) (S : Bool → Stmt → Prop) (declared literal : Routine → Prop) :
    Prop where
  expr_iff : ∀ e, E e ↔ (∀ part ∈ e.shape.parts, E part) ∧
    (∀ r, e.shape = .routine r → declared r) ∧ ∀ r, e.shape = .struct r → literal r
  literal_of_declared : ∀ r values, declared r → (∀ e ∈ values.getD [], E e) →
    literal (r.withValues values)
  stmt : ∀ looped s, s.Fits looped → (∀ e ∈ s.exprs, E e) →
    (∀ t ∈ s.inner, S (looped || s.isLoop) t) → (∀ r, s.routine? = some r → declared r) → S looped s
  static : ∀ looped s, S looped s → S looped s.toStatic

/-- What a fragment holds while it is built has the properties, and what building does not touch is
as it was at the beginning. -/
structure Holds (E : Expr → Prop) (declared : Routine → Prop) (start f : Fragment) :
    Prop where
  stack : ∀ e ∈ f.stack, E e
  pending : ∀ p ∈ f.pending, declared p.2
  parentCall : ∀ e, f.parentCall = some e → E e
  inLoop : f.inLoop = start.inLoop
  naming : f.naming = start.naming
  structArguments : f.structArguments = start.structArguments
  maxArgument : f.maxArgument = start.maxArgument

namespace Holds

variable {E : Expr → Prop} {declared : Routine → Prop} {start f : Fragment} {e : Expr}

/-- A fragment holds whatever there may be. -/
theorem anything (f : Fragment) : Holds (fun _ => True) (fun _ => True) f f where
  stack _ _ := trivial
  pending _ _ := trivial
  parentCall _ _ := trivial
  inLoop := rfl
  naming := rfl
  structArguments := rfl
  maxArgument := rfl

/-- A new fragment holds nothing. -/
theorem begin (codeName : String) (name : Option String) (argCount : UInt16) :
    Holds E declared (Fragment.start codeName name argCount)
      (Fragment.start codeName name argCount) where
  stack := List.forall_mem_nil _
  pending := List.forall_mem_nil _
  parentCall := by simp [Fragment.start]
  inLoop := rfl
  naming := rfl
  structArguments := rfl
  maxArgument := rfl

/-- An expression with the property may be pushed. -/
theorem push (hf : Holds E declared start f) (he : E e) : Holds E declared start (f.push e) :=
  { hf with stack := List.forall_mem_cons.mpr ⟨he, hf.stack⟩ }

/-- Noting a local variable leaves what the fragment holds alone. -/
theorem noteLocal (hf : Holds E declared start f) (name : String) :
    Holds E declared start (f.noteLocal name) := by
  rw [Fragment.noteLocal_eq]
  exact { hf with }

/-- Entering a loop changes the fragment that the code starts in and nothing that is held. -/
theorem enterLoop (hf : Holds E declared start f) :
    Holds E declared { start with inLoop := true } { f with inLoop := true } :=
  { hf with inLoop := rfl }

/-- Leaving a loop puts the mark of the code around it back. -/
theorem leaveLoop (hf : Holds E declared { start with inLoop := true } f) {outer : Bool}
    (houter : outer = start.inLoop) : Holds E declared start { f with inLoop := outer } :=
  { hf with inLoop := houter }

/-- A cleanup that becomes pending is not held as a tree: its statements were given before. -/
theorem pushCleanup (hf : Holds E declared start f) (cleanup : List Stmt) :
    Holds E declared start (f.pushCleanup cleanup) :=
  { hf with }

/-- A cleanup that is no longer pending. -/
theorem popCleanup (hf : Holds E declared start f) : Holds E declared start f.popCleanup :=
  { hf with }

/-- A pending routine that is taken has the property, and so have the others. -/
theorem takePending (hf : Holds E declared start f) {name : String} {routine : Routine}
    {f' : Fragment} (htaken : f.takePending name = some (routine, f')) :
    Holds E declared start f' ∧ declared routine := by
  obtain ⟨r, hlookup, heq⟩ := Option.map_eq_some_iff.mp htaken
  cases heq
  obtain ⟨before, after, hpending, -⟩ := List.lookup_eq_some_iff.mp hlookup
  have hmem : (name, routine) ∈ f.pending := by simp [hpending]
  refine ⟨{ hf with pending := fun p hp => hf.pending p (List.mem_filter.mp hp).1 }, ?_⟩
  exact hf.pending (name, routine) hmem

end Holds

/-- A routine that is put among pending ones is one of them, and it takes the place of at most
one. -/
theorem Fragment.snd_eq_or_mem_of_mem_putPending {codeName : String} {routine : Routine}
    {pending : List (String × Routine)} {p : String × Routine}
    (hp : p ∈ putPending codeName routine pending) : p.2 = routine ∨ p ∈ pending := by
  induction pending with
  | nil =>
    rw [putPending, List.mem_singleton] at hp
    exact .inl (congrArg Prod.snd hp)
  | cons first rest ih =>
    rw [putPending] at hp
    split at hp
    · rcases List.mem_cons.mp hp with rfl | hp
      · exact .inl rfl
      · exact .inr (List.mem_cons_of_mem _ hp)
    · rcases List.mem_cons.mp hp with rfl | hp
      · exact .inr List.mem_cons_self
      · exact (ih hp).imp_right (List.mem_cons_of_mem _)

/-- A routine with the property may be declared; it is pending then. -/
theorem Holds.declare {E : Expr → Prop} {declared : Routine → Prop} {start : Fragment}
    {d : Draft} {r : Routine} (hd : Holds E declared start d.fragment) (hr : declared r)
    (header : RoutineHeader) : Holds E declared start (d.declare header r).fragment := by
  have hadd {f : Fragment} (hf : Holds E declared start f) :
      Holds E declared start (f.addPending header.codeName r) := by
    refine { hf with pending := fun p hp => ?_ }
    rcases Fragment.snd_eq_or_mem_of_mem_putPending hp with heq | hp
    · rw [heq]
      exact hr
    · exact hf.pending p hp
  unfold Draft.declare
  dsimp only
  split
  · exact hadd { hd with }
  · exact hadd hd

/-- Dropping a copy of a cleanup leaves only statements that were there. -/
theorem Fragment.mem_of_mem_dropCleanupCopy {f : Fragment} {output : List Stmt} {s : Stmt}
    (hs : s ∈ f.dropCleanupCopy output) : s ∈ output := by
  unfold dropCleanupCopy at hs
  split at hs
  · unfold dropTrailing at hs
    dsimp only at hs
    split at hs
    · exact List.mem_of_mem_take hs
    · exact hs
  · exact hs

namespace Instruction

variable (i : Instruction) {stack stack' : List Expr}

/-- A segment that is taken splits the stack in two. -/
theorem slots_append_rest_of_takeSegment {i : Instruction} {bytes : Int} {segment : Segment}
    (htake : i.takeSegment bytes stack = .ok segment) : segment.slots ++ segment.rest = stack := by
  unfold takeSegment at htake
  split at htake
  · cases htake
    exact Segment.slots_append_rest ‹_›
  · cases htake

/-- A swap only moves expressions. -/
theorem mem_of_mem_swapRegions (hswap : i.swapRegions stack = .ok stack') {e : Expr}
    (he : e ∈ stack') : e ∈ stack := by
  unfold swapRegions at hswap
  split at hswap
  · cases hswap
    exact he
  · obtain ⟨top, htop, hswap⟩ := exists_of_bind_eq_ok hswap
    obtain ⟨bottom, hbottom, hswap⟩ := exists_of_bind_eq_ok hswap
    split at hswap
    · cases hswap
    · cases hswap
      have hstack := slots_append_rest_of_takeSegment htop
      have hrest := slots_append_rest_of_takeSegment hbottom
      rw [← hstack, ← hrest]
      simp only [List.mem_append] at he ⊢
      tauto

/-- A duplication only marks expressions. -/
theorem exists_mem_of_mem_copyRegion (hcopy : i.copyRegion stack = .ok stack') {e : Expr}
    (he : e ∈ stack') : ∃ e' ∈ stack, e.shape = e'.shape := by
  obtain ⟨segment, hsegment, hcopy⟩ := exists_of_bind_eq_ok hcopy
  split at hcopy
  · cases hcopy
  · cases hcopy
    have hstack := slots_append_rest_of_takeSegment hsegment
    have hmarked : e ∈ segment.slots.map (fun e => { e with duplicated := true }) ∨
        e ∈ segment.rest := by
      simpa only [List.mem_append, or_self] using he
    rcases hmarked with hmarked | hrest
    · obtain ⟨e', he', rfl⟩ := List.mem_map.mp hmarked
      exact ⟨e', hstack ▸ List.mem_append_left _ he', rfl⟩
    · exact ⟨e, hstack ▸ List.mem_append_right _ hrest, rfl⟩

/-- The routine that is bound is one of the arguments. -/
theorem mem_of_boundRoutine? {function : String} {arguments : List Expr} {routine : Expr}
    (hbound : boundRoutine? function arguments = some routine) : routine ∈ arguments := by
  unfold boundRoutine? at hbound
  split at hbound
  · split at hbound
    · split at hbound
      · cases hbound
        simp
      · cases hbound
    · cases hbound
  · cases hbound

end Instruction

namespace Holds

variable {E : Expr → Prop} {declared : Routine → Prop} {start : Fragment} (i : Instruction)

/-- An expression that is popped was on the stack and has the property. -/
theorem pop_keeps (address : UInt32) :
    Keeps (Holds E declared start) (Action.pop address) E := by
  intro f hf e f' hrun
  unfold Action.pop Fragment.tryPop at hrun
  cases hstack : f.stack with
  | nil =>
    rw [hstack] at hrun
    cases hrun
  | cons top rest =>
    rw [hstack] at hrun
    cases hrun
    have hall := hf.stack
    rw [hstack] at hall
    exact ⟨{ hf with stack := fun e he => hall e (List.mem_cons_of_mem _ he) },
      hall _ List.mem_cons_self⟩

/-- A condition that is popped was on the stack and has the property. -/
theorem popCondition_keeps (construct : Construct) :
    Keeps (Holds E declared start) (Action.popCondition construct) E := by
  intro f hf e f' hrun
  have hpop : Action.pop 0 f = .ok (e, f') := by
    unfold Action.popCondition at hrun
    unfold Action.pop
    split at hrun
    · exact hrun
    · cases hrun
  exact pop_keeps 0 f hf e f' hpop

/-- All expressions that are popped have the property. -/
theorem popMany_keeps (address : UInt32) (count : Nat) :
    Keeps (Holds E declared start) (Action.popMany address count)
      fun es => ∀ e ∈ es, E e := by
  intro f hf es f' hrun
  unfold Action.popMany at hrun
  split at hrun
  · cases hrun
    exact ⟨{ hf with stack := fun e he => hf.stack e (List.mem_of_mem_drop he) },
      fun e he => hf.stack e (List.mem_of_mem_take he)⟩
  · cases hrun

/-- An expression with the property may be pushed by an action. -/
theorem pushExpr_keeps {e : Expr} (he : E e) :
    Keeps (Holds E declared start) (modify (·.push e) : Action Unit) fun _ => True :=
  .modify fun _ hf => hf.push he

/-- Finding the variable of an instruction changes at most the local variables. -/
theorem accessed_keeps : Keeps (Holds E declared start) i.accessed fun _ => True := by
  unfold Instruction.accessed
  split
  · exact .throw _
  · dsimp only
    split
    · exact .bind (.modify fun f hf => hf.noteLocal _) fun _ _ => .pure trivial
    · exact .pure trivial

/-- The owner of a variable was on the stack and has the property. -/
theorem popOwner_keeps : Keeps (Holds E declared start) i.popOwner E := by
  refine .bind (pop_keeps _) fun owner howner => ?_
  split
  · exact pop_keeps _
  · exact .pure howner

/-- Swapping puts expressions back that were on the stack. -/
theorem popSwap_keeps : Keeps (Holds E declared start) i.popSwap fun _ => True := by
  refine .bind (pop_keeps _) fun first hfirst => ?_
  refine .bind (pop_keeps _) fun second hsecond => ?_
  refine .bind (popMany_keeps _ _) fun _ _ => ?_
  exact .modify fun f hf => (hf.push hsecond).push hfirst

end Holds

/-- The two indices that an index stands for are parts of it or of a part of it. -/
theorem Expr.parts_of_rowAndColumn? {index first second : Expr}
    (hpair : index.rowAndColumn? = some (first, second)) :
    second ∈ index.shape.parts ∧ ∃ row ∈ index.shape.parts, first ∈ row.shape.parts := by
  unfold Expr.rowAndColumn? at hpair
  split at hpair
  · rename_i sum product row stride _ _ _ column hshape
    split at hpair
    · split at hpair
      · cases hpair
        simp [hshape, Shape.parts]
      · cases hpair
    · cases hpair
  · cases hpair

/-- Building a region keeps what the fragment holds, and gives statements with the property. -/
def RegionKeeps (E : Expr → Prop) (S : Bool → Stmt → Prop) (declared : Routine → Prop)
    (dialect : Dialect) (nodes : List Node) : Prop :=
  ∀ (start f : Fragment) ss f', Holds E declared start f →
    buildRegion (Machine.step dialect) nodes f = .ok (ss, f') →
    Holds E declared start f' ∧ ∀ s ∈ ss, S start.inLoop s

/-- The conditions of a chain have the property if their regions pass it on, and so have the
statements that the regions give besides. -/
theorem ConditionsGive.keeps {E : Expr → Prop} {S : Bool → Stmt → Prop} {declared : Routine → Prop}
    {dialect : Dialect} {start : Fragment} {regions : List (List Node)} {f f' : Fragment}
    {es : List Expr} {ss : List Stmt}
    (hgive : ConditionsGive (Machine.step dialect) regions f es ss f')
    (hregions : ∀ nodes ∈ regions, RegionKeeps E S declared dialect nodes)
    (hf : Holds E declared start f) :
    Holds E declared start f' ∧ (∀ e ∈ es, E e) ∧ ∀ s ∈ ss, S start.inLoop s := by
  induction hgive with
  | nil => exact ⟨hf, List.forall_mem_nil _, List.forall_mem_nil _⟩
  | cons hregion hpop _ ih =>
    obtain ⟨hfirst, hregions⟩ := List.forall_mem_cons.mp hregions
    obtain ⟨hf₁, hss⟩ := hfirst start _ _ _ hf hregion
    obtain ⟨hf₂, hcondition⟩ := Holds.popCondition_keeps _ _ hf₁ _ _ hpop
    obtain ⟨hf', hes, hrest⟩ := ih hregions hf₂
    exact ⟨hf', List.forall_mem_cons.mpr ⟨hcondition, hes⟩,
      List.forall_mem_append.mpr ⟨hss, hrest⟩⟩

/-- The statement that declares local variables, if there are any. -/
def localsDeclaration (names : List String) : List Stmt :=
  if names.isEmpty then [] else [.locals names]

/-- The only statement that declares local variables at the start of a function is the
declaration. -/
theorem eq_of_mem_localsDeclaration {names : List String} {s : Stmt}
    (hs : s ∈ localsDeclaration names) : s = .locals names := by
  unfold localsDeclaration at hs
  split at hs
  · cases hs
  · exact List.mem_singleton.mp hs

/-- A finished fragment has the declaration of its local variables in front of its statements. -/
theorem Fragment.finish_eq (f : Fragment) (ss : List Stmt) :
    f.finish ss = (localsDeclaration f.purgeLocals.locals ++ ss, f.purgeLocals) := by
  unfold finish localsDeclaration
  dsimp only
  split <;> rfl

namespace Inherited

variable {E : Expr → Prop} {S : Bool → Stmt → Prop} {declared literal : Routine → Prop}
  (h : Inherited E S declared literal)
include h

/-- A part of an expression with the property has it. -/
theorem part {e part : Expr} (he : E e) (hpart : part ∈ e.shape.parts) : E part :=
  ((h.expr_iff e).mp he).1 part hpart

/-- Marks, parentheses and slots do not matter. -/
theorem of_shape_eq {e e' : Expr} (he : E e) (hshape : e'.shape = e.shape) : E e' := by
  rw [h.expr_iff, hshape]
  exact (h.expr_iff e).mp he

/-- An expression has the property if all its parts have and it holds no routine. -/
theorem ofShape {shape : Shape} (hparts : ∀ part ∈ shape.parts, E part)
    (hroutine : shape.routine? = none) : E (Expr.ofShape shape) := by
  refine (h.expr_iff _).mpr ⟨hparts, ?_, ?_⟩
  · rintro r rfl
    cases hroutine
  · rintro r rfl
    cases hroutine

/-- Converting an expression keeps its parts. A literal that is converted has none. -/
theorem convert {e : Expr} (he : E e) (source target : SlotType) : E (e.convert source target) := by
  have hbit (bit : Bool) : E (Expr.ofShape (.boolean bit)) :=
    h.ofShape (List.forall_mem_nil _) rfl
  unfold Expr.convert
  split
  · split
    · exact hbit _
    · split
      · exact h.of_shape_eq (hbit _) rfl
      · exact h.of_shape_eq he rfl
  · exact h.of_shape_eq he rfl

/-- The indices that an index on the stack stands for are the index itself or its parts. -/
theorem indices (d : Dialect) {index : Expr} (hindex : E index) :
    ∀ e ∈ d.indices index, E e := by
  unfold Dialect.indices
  split
  · exact List.forall_mem_singleton.mpr hindex
  · split
    · rename_i first second hpair
      obtain ⟨hsecond, row, hrow, hfirst⟩ := Expr.parts_of_rowAndColumn? hpair
      exact List.forall_mem_cons.mpr ⟨h.part (h.part hindex hrow) hfirst,
        List.forall_mem_singleton.mpr (h.part hindex hsecond)⟩
    · exact List.forall_mem_singleton.mpr hindex

/-- An access has its owner and its indices in it. -/
theorem access {a : Access} (howner : E a.owner) (hindices : ∀ e ∈ a.indices.getD [], E e) :
    E (Expr.ofShape (.access a)) :=
  h.ofShape (List.forall_mem_cons.mpr ⟨howner, hindices⟩) rfl

/-- A struct literal has the routine and the values that it is made from in it. -/
theorem instantiate {callee : Expr} {arguments : List Expr} (hcallee : E callee)
    (harguments : ∀ e ∈ arguments, E e) :
    E (Expr.ofShape (Instruction.instantiate callee arguments)) := by
  have hconstruct : E (Expr.ofShape (.construct callee arguments)) :=
    h.ofShape (List.forall_mem_cons.mpr ⟨hcallee, harguments⟩) rfl
  unfold Instruction.instantiate
  split
  · rename_i routine hshape
    split
    · have hdeclared := ((h.expr_iff callee).mp hcallee).2.1 routine hshape
      refine (h.expr_iff _).mpr ⟨harguments, fun r hr => ?_, fun r hr => ?_⟩
      · cases hr
      · cases hr
        exact h.literal_of_declared routine _ hdeclared harguments
    · exact hconstruct
  · exact hconstruct

/-- A statement without statements and routines in it. -/
theorem simple {s : Stmt} (looped : Bool) (hfits : s.Fits looped) (hinner : s.inner = [])
    (hroutine : s.routine? = none) (hexprs : ∀ e ∈ s.exprs, E e) : S looped s := by
  refine h.stmt looped s hfits hexprs ?_ ?_
  · rw [hinner]
    exact List.forall_mem_nil _
  · intro r hr
    rw [hroutine] at hr
    cases hr

section Machine

variable {d : Dialect} (i : Instruction) {start : Fragment} (looped : Bool)

/-- A shape may be pushed if all its parts have the property and it holds no routine. -/
theorem push_keeps {shape : Shape} (hparts : ∀ part ∈ shape.parts, E part)
    (hroutine : shape.routine? = none) :
    Keeps (Holds E declared start) (Action.push shape) fun _ => True :=
  Holds.pushExpr_keeps (h.ofShape hparts hroutine)

/-- The owner that is written when none is on the stack has no parts. -/
theorem ownOwner : E i.ownOwner :=
  h.ofShape (List.forall_mem_nil _) rfl

/-- An access that is read has the property, since its owner and its indices come from the stack. -/
theorem readAccess_keeps :
    Keeps (Holds E declared start) (i.readAccess d)
      fun a => E (Expr.ofShape (.access a)) := by
  unfold Instruction.readAccess
  refine .bind (Holds.accessed_keeps i) fun v _ => ?_
  dsimp only
  split
  · exact .bind (Holds.popOwner_keeps i) fun owner howner =>
      .pure (h.access howner (List.forall_mem_nil _))
  · split
    · refine .bind (Holds.pop_keeps _) fun index hindex => ?_
      exact .bind (Holds.popOwner_keeps i) fun owner howner =>
        .pure (h.access howner (h.indices d hindex))
    · split
      · refine .bind (Holds.pop_keeps _) fun index hindex => ?_
        exact .bind (Holds.popOwner_keeps i) fun owner howner =>
          .pure (h.access howner (List.forall_mem_singleton.mpr hindex))
      · exact .pure (h.access (h.ownOwner i) (List.forall_mem_nil _))

/-- An access that is written has the property, since its owner and its indices come from the
stack. -/
theorem writeAccess_keeps (v : VarRef) :
    Keeps (Holds E declared start) (i.writeAccess d v)
      fun a => E (Expr.ofShape (.access a)) := by
  unfold Instruction.writeAccess
  split
  · exact .bind (Holds.popOwner_keeps i) fun owner howner =>
      .pure (h.access howner (List.forall_mem_nil _))
  · split
    · refine .bind (Holds.pop_keeps _) fun index hindex => ?_
      exact .bind (Holds.popOwner_keeps i) fun owner howner =>
        .pure (h.access howner (h.indices d hindex))
    · exact .pure (h.access (h.ownOwner i) (List.forall_mem_nil _))

/-- A function that is fetched was pending, or it is a name and has no parts. -/
theorem takeFunction_keeps (name : String) :
    Keeps (Holds E declared start) (Instruction.takeFunction name)
      fun shape => E (Expr.ofShape shape) := by
  intro f hf shape f' hrun
  unfold Instruction.takeFunction at hrun
  split at hrun
  · rename_i routine g htaken
    cases hrun
    obtain ⟨hg, hroutine⟩ := hf.takePending htaken
    refine ⟨hg, (h.expr_iff _).mpr ⟨List.forall_mem_nil _, fun r hr => ?_, fun r hr => ?_⟩⟩
    · cases hr
      exact hroutine
    · cases hr
  · cases hrun
    exact ⟨hf, h.ofShape (List.forall_mem_nil _) rfl⟩

/-- What an instruction pushes has the property: a literal, a variable that is read, or a function
that is fetched. -/
theorem pushed_keeps :
    Keeps (Holds E declared start) (i.pushed d) fun shape => E (Expr.ofShape shape) := by
  unfold Instruction.pushed
  split
  · split
    · exact .pure (h.ofShape (List.forall_mem_nil _) rfl)
    · exact h.takeFunction_keeps _
  · exact .pure (h.ofShape (List.forall_mem_nil _) rfl)
  · exact .pure (h.ofShape (List.forall_mem_nil _) rfl)
  · exact .pure (h.ofShape (List.forall_mem_nil _) rfl)
  · exact .pure (h.ofShape (List.forall_mem_nil _) rfl)
  · exact .pure (h.ofShape (List.forall_mem_nil _) rfl)
  · exact .bind (h.readAccess_keeps i) fun a ha => .pure ha

/-- Both sides of an assignment have the property. -/
theorem popAssignment_keeps :
    Keeps (Holds E declared start) (i.popAssignment d)
      fun p => E (Expr.ofShape (.access p.1)) ∧ E p.2 := by
  unfold Instruction.popAssignment
  refine .bind (Holds.accessed_keeps i) fun v _ => ?_
  split
  · refine .bind (Holds.pop_keeps _) fun value hvalue => ?_
    exact .bind (h.writeAccess_keeps i v) fun a ha => .pure ⟨ha, hvalue⟩
  · refine .bind (h.writeAccess_keeps i v) fun a ha => ?_
    exact .bind (Holds.pop_keeps _) fun value hvalue => .pure ⟨ha, hvalue⟩

/-- The statement that a store gives may stand anywhere and has expressions with the property. -/
theorem store_keeps :
    Keeps (Holds E declared start) (i.store d) fun ss => ∀ s ∈ ss, S looped s := by
  refine .bind (h.popAssignment_keeps i) fun (a, value) ⟨ha, hvalue⟩ => ?_
  have hstored : E (Instruction.stored i.type2 value) := by
    unfold Instruction.stored
    split
    · exact h.ofShape (List.forall_mem_nil _) rfl
    · exact hvalue
  dsimp only
  split
  · exact .pure (List.forall_mem_nil _)
  · refine .pure (List.forall_mem_singleton.mpr (h.simple looped ⟨rfl, nofun⟩ rfl rfl ?_))
    exact List.forall_mem_cons.mpr ⟨ha, List.forall_mem_singleton.mpr hstored⟩

/-- A call has its arguments as parts, and they come from the stack. -/
theorem performCall_keeps : Keeps (Holds E declared start) i.performCall fun _ => True := by
  unfold Instruction.performCall
  split
  · exact .throw _
  · split
    · refine .bind (Holds.pop_keeps _) fun callee hcallee => ?_
      refine .bind (Holds.popMany_keeps _ _) fun arguments harguments => ?_
      exact Holds.pushExpr_keeps (h.instantiate hcallee harguments)
    · refine .bind (Holds.popMany_keeps _ _) fun arguments harguments => ?_
      split
      · refine .bind (Holds.pop_keeps _) fun parentCall hparent => .modify fun f hf => ?_
        exact { hf with parentCall := fun e he => Option.some.inj he ▸ hparent }
      · split
        · rename_i routine hbound
          exact Holds.pushExpr_keeps (harguments routine (Instruction.mem_of_boundRoutine? hbound))
        · exact h.push_keeps harguments rfl

/-- Expressions that are duplicated or swapped have the property, with the mark for a copy or
without. -/
theorem performDuplicate_keeps :
    Keeps (Holds E declared start) i.performDuplicate fun _ => True := by
  intro f hf u f' hrun
  unfold Instruction.performDuplicate at hrun
  split at hrun
  · obtain ⟨stack, hstack, hrun⟩ := exists_of_bind_eq_ok hrun
    cases hrun
    refine ⟨{ hf with stack := fun e he => ?_ }, trivial⟩
    obtain ⟨e', he', hsame⟩ := i.exists_mem_of_mem_copyRegion hstack he
    exact h.of_shape_eq (hf.stack e' he') hsame
  · obtain ⟨stack, hstack, hrun⟩ := exists_of_bind_eq_ok hrun
    cases hrun
    refine ⟨{ hf with stack := fun e he => ?_ }, trivial⟩
    exact hf.stack e (i.mem_of_mem_swapRegions hstack he)

/-- The extended instructions push nothing with parts. -/
theorem performExtended_keeps :
    Keeps (Holds E declared start) i.performExtended fun _ => True := by
  unfold Instruction.performExtended
  split
  · exact .bind (Holds.pop_keeps _) fun _ _ => .pure trivial
  · split
    · exact h.push_keeps (List.forall_mem_nil _) rfl
    · exact h.push_keeps (List.forall_mem_nil _) rfl
  · exact .pure trivial

/-- The statement that dropping an expression gives has that expression as its only part. -/
theorem discard_keeps :
    Keeps (Holds E declared start) Instruction.discard fun ss => ∀ s ∈ ss, S looped s := by
  intro f hf ss f' hrun
  unfold Instruction.discard at hrun
  split at hrun
  · cases hrun
    exact ⟨hf, List.forall_mem_nil _⟩
  · rename_i e _ hpop
    cases hrun
    have hrun : Action.pop 0 f = .ok (e, f') := by simp [Action.pop, hpop]
    obtain ⟨hf', he⟩ := Holds.pop_keeps 0 f hf e f' hrun
    refine ⟨hf', ?_⟩
    split
    · exact List.forall_mem_nil _
    · refine List.forall_mem_singleton.mpr (h.simple looped ⟨rfl, fun hjump => ?_⟩ rfl rfl
        (List.forall_mem_singleton.mpr he))
      cases hjump

/-- What an instruction leaves in the fragment, and the statements that it gives, are made of what
the fragment held. -/
theorem perform_keeps :
    Keeps (Holds E declared start) (i.perform d) fun ss => ∀ s ∈ ss, S looped s := by
  have hsilent {α : Type} {x : Action α} {P : α → Prop}
      (hx : Keeps (Holds E declared start) x P) :
      Keeps (Holds E declared start) (x >>= fun _ => (pure [] : Action (List Stmt)))
        fun ss => ∀ s ∈ ss, S looped s :=
    hx.bind fun _ _ => .pure (List.forall_mem_nil _)
  unfold Instruction.perform
  cases i.opcode with
  | multiply | divide | remainder | modulo | add | subtract | and | or | xor | shiftLeft
  | shiftRight | compare =>
    refine hsilent (.bind (Holds.pop_keeps _) fun right hright => .bind (Holds.pop_keeps _)
      fun left hleft => h.push_keeps ?_ rfl)
    exact List.forall_mem_cons.mpr ⟨hleft, List.forall_mem_singleton.mpr hright⟩
  | negate | not =>
    exact hsilent (.bind (Holds.pop_keeps _) fun operand hoperand =>
      h.push_keeps (List.forall_mem_singleton.mpr hoperand) rfl)
  | convert =>
    exact hsilent (.bind (Holds.pop_keeps _) fun e he => Holds.pushExpr_keeps (h.convert he _ _))
  | ret =>
    refine .bind (Holds.pop_keeps _) fun value hvalue => .pure (List.forall_mem_singleton.mpr ?_)
    exact h.simple looped ⟨rfl, nofun⟩ rfl rfl (List.forall_mem_singleton.mpr hvalue)
  | exit =>
    exact .pure (List.forall_mem_singleton.mpr
      (h.simple looped ⟨rfl, nofun⟩ rfl rfl (List.forall_mem_nil _)))
  | popDelete => exact h.discard_keeps looped
  | call => exact hsilent (h.performCall_keeps i)
  | callValue =>
    refine hsilent (.bind (Holds.pop_keeps _) fun callee hcallee => .bind (Holds.pop_keeps _)
      fun self hself => .bind (Holds.popMany_keeps _ _) fun arguments harguments =>
        h.push_keeps ?_ rfl)
    exact List.forall_mem_cons.mpr ⟨hcallee, List.forall_mem_cons.mpr ⟨hself, harguments⟩⟩
  | push | pushLocal | pushGlobal | pushBuiltin =>
    exact .bind (h.pushed_keeps i) fun shape hshape => hsilent (Holds.pushExpr_keeps hshape)
  | pushImmediate => exact hsilent (h.push_keeps (List.forall_mem_nil _) rfl)
  | pop =>
    dsimp only
    split
    · exact hsilent (Holds.popSwap_keeps i)
    · exact h.store_keeps i looped
  | duplicate => exact hsilent (h.performDuplicate_keeps i)
  | extended => exact hsilent (h.performExtended_keeps i)
  | branch | branchTrue | branchFalse | pushContext | popContext =>
    exact .pure (List.forall_mem_nil _)

/-- Straight code keeps what the fragment holds and what it gave before. -/
theorem foldlM_step_keeps (code : List Instruction) {m m' : Machine}
    (hfragment : Holds E declared start m.fragment) (houtput : ∀ s ∈ m.output, S looped s)
    (hrun : code.foldlM (Machine.step d) m = .ok m') :
    Holds E declared start m'.fragment ∧ ∀ s ∈ m'.output, S looped s := by
  induction code generalizing m with
  | nil =>
    cases hrun
    exact ⟨hfragment, houtput⟩
  | cons i code ih =>
    obtain ⟨middle, hstep, hrest⟩ := exists_of_bind_eq_ok hrun
    obtain ⟨⟨ss, f⟩, hperform, hstep⟩ := exists_of_bind_eq_ok hstep
    cases hstep
    obtain ⟨hf, hss⟩ := h.perform_keeps i looped m.fragment hfragment ss f hperform
    refine ih hf (List.forall_mem_append.mpr ⟨fun s hs => ?_, hss⟩) hrest
    split at hs
    · exact houtput s (Fragment.mem_of_mem_dropCleanupCopy hs)
    · exact houtput s hs

end Machine

section Regions

variable {dialect : Dialect} {start : Fragment}

/-- Settling one declaration turns a pending routine into a statement. -/
theorem settle_keeps {ss : List Stmt} {f : Fragment} (hfragment : Holds E declared start f)
    (houtput : ∀ s ∈ ss, S start.inLoop s) (p : Nat × String) :
    Holds E declared start (Draft.settle (ss, f) p).2 ∧
      ∀ s ∈ (Draft.settle (ss, f) p).1, S start.inLoop s := by
  unfold Draft.settle
  split
  · rename_i routine f htaken
    obtain ⟨hf, hroutine⟩ := hfragment.takePending htaken
    refine ⟨hf, fun s hs => ?_⟩
    rcases (List.mem_insertIdx (Nat.min_le_right _ _)).mp hs with rfl | hs
    · refine h.stmt start.inLoop _ ⟨rfl, nofun⟩ (List.forall_mem_nil _) (List.forall_mem_nil _) ?_
      rintro r ⟨⟩
      exact hroutine
    · exact houtput s hs
  · exact ⟨hfragment, houtput⟩

/-- Routines that are declared where they stood have the property, and so have the statements
around them. -/
theorem close_keeps {d : Draft} (hfragment : Holds E declared start d.fragment)
    (houtput : ∀ s ∈ d.output, S start.inLoop s) :
    Holds E declared start d.close.2 ∧ ∀ s ∈ d.close.1, S start.inLoop s := by
  obtain ⟨f, ss, positions⟩ := d
  induction positions generalizing f ss with
  | nil => exact ⟨hfragment, houtput⟩
  | cons first rest ih =>
    obtain ⟨hf, hss⟩ := h.settle_keeps hfragment houtput first
    exact ih _ _ hf hss

/-- A statement that a node gives, with the statements of its regions in it. -/
theorem compound {s : Stmt} {looped : Bool} (hlocals : s.isLocals = false)
    (hjump : s.isJump = false) (hroutine : s.routine? = none) (hexprs : ∀ e ∈ s.exprs, E e)
    (hinner : ∀ t ∈ s.inner, S (looped || s.isLoop) t) : S looped s := by
  refine h.stmt looped s ⟨hlocals, ?_⟩ hexprs hinner ?_
  · rw [hjump]
    exact nofun
  · rw [hroutine]
    exact nofun

/-- A node that is neither straight code nor a routine gives statements with the property if its
regions do. -/
theorem gives_keep {n : Node} {f f' : Fragment} {ss : List Stmt}
    (hregions : ∀ nodes ∈ n.regions false, RegionKeeps E S declared dialect nodes)
    (hf : Holds E declared start f) (hgives : n.Gives (Machine.step dialect) f ss f') :
    Holds E declared start f' ∧ ∀ s ∈ ss, S start.inLoop s := by
  cases hgives with
  | branch hpop hthen =>
    obtain ⟨hf₁, hcondition⟩ := Holds.popCondition_keeps _ _ hf _ _ hpop
    obtain ⟨hf', hss⟩ := hregions _ List.mem_cons_self start _ _ _ hf₁ hthen
    refine ⟨hf', List.forall_mem_singleton.mpr ?_⟩
    refine h.compound rfl rfl rfl (List.forall_mem_singleton.mpr hcondition) ?_
    simpa [Stmt.inner, Stmt.isLoop] using hss
  | branchElse hpop hthen helse =>
    obtain ⟨hfirst, hsecond⟩ := List.forall_mem_cons.mp hregions
    obtain ⟨hf₁, hcondition⟩ := Holds.popCondition_keeps _ _ hf _ _ hpop
    obtain ⟨hf₂, hss⟩ := hfirst start _ _ _ hf₁ hthen
    obtain ⟨hf', helses⟩ := hsecond _ List.mem_cons_self start _ _ _ hf₂ helse
    refine ⟨hf', List.forall_mem_singleton.mpr ?_⟩
    refine h.compound rfl rfl rfl (List.forall_mem_singleton.mpr hcondition) ?_
    simp only [Stmt.isLoop, Bool.or_false]
    exact List.forall_mem_append.mpr ⟨hss, helses⟩
  | chain hgive =>
    obtain ⟨hf₁, hes, hss⟩ := hgive.keeps hregions hf
    exact ⟨hf₁.push (h.ofShape hes rfl), hss⟩
  | loop hcondition hpop hbody =>
    obtain ⟨hfirst, hsecond⟩ := List.forall_mem_cons.mp hregions
    obtain ⟨hf₁, hbefore⟩ := hfirst start _ _ _ hf hcondition
    obtain ⟨hf₂, he⟩ := Holds.popCondition_keeps _ _ hf₁ _ _ hpop
    obtain ⟨hf₃, hss⟩ := hsecond _ List.mem_cons_self _ _ _ _ hf₂.enterLoop hbody
    refine ⟨hf₃.leaveLoop hf₂.inLoop, List.forall_mem_append.mpr ⟨hbefore, ?_⟩⟩
    refine List.forall_mem_singleton.mpr ?_
    refine h.compound rfl rfl rfl (List.forall_mem_singleton.mpr he) ?_
    simp only [Stmt.isLoop, Bool.or_true]
    exact hss
  | leave hloop | again hloop =>
    refine ⟨hf, List.forall_mem_singleton.mpr ?_⟩
    exact h.simple _ ⟨rfl, fun _ => hf.inLoop ▸ hloop⟩ rfl rfl (List.forall_mem_nil _)
  | guarded hbody =>
    obtain ⟨hf', hss⟩ := hregions _ List.mem_cons_self start _ _ _ hf hbody
    refine ⟨hf', List.forall_mem_singleton.mpr ?_⟩
    refine h.compound rfl rfl rfl (List.forall_mem_nil _) ?_
    simpa [Stmt.inner, Stmt.isLoop] using hss
  | guardedCleanup hcleanup hbody =>
    obtain ⟨hfirst, hsecond⟩ := List.forall_mem_cons.mp hregions
    obtain ⟨hf₁, hcopy⟩ := hfirst start _ _ _ hf hcleanup
    obtain ⟨hf₂, hss⟩ := hsecond _ List.mem_cons_self start _ _ _ (hf₁.pushCleanup _) hbody
    refine ⟨hf₂.popCleanup, List.forall_mem_singleton.mpr ?_⟩
    refine h.compound rfl rfl rfl (List.forall_mem_nil _) ?_
    simp only [Stmt.isLoop, Bool.or_false]
    exact List.forall_mem_append.mpr ⟨hss, hcopy⟩
  | statics hbody =>
    obtain ⟨hf', hss⟩ := hregions _ List.mem_cons_self start _ _ _ hf hbody
    refine ⟨hf', fun static hstatic => ?_⟩
    obtain ⟨s, hs, rfl⟩ := List.mem_map.mp hstatic
    exact h.static _ s (hss s hs)

/-- A node keeps what the fragment holds, and gives statements with the property, if its regions do
and the routine that it declares has its own. -/
theorem moves_keep {n : Node} {d d' : Draft}
    (hregions : ∀ nodes ∈ n.regions false, RegionKeeps E S declared dialect nodes)
    (hroutine : ∀ p, n.routine? = some p → ∀ r,
      buildRoutine (Machine.step dialect) p.1 p.2 = .ok r → declared r)
    (hfragment : Holds E declared start d.fragment) (houtput : ∀ s ∈ d.output, S start.inLoop s)
    (hmoves : n.Moves (Machine.step dialect) d d') :
    Holds E declared start d'.fragment ∧ ∀ s ∈ d'.output, S start.inLoop s := by
  cases hmoves with
  | block hfold => exact h.foldlM_step_keeps start.inLoop _ hfragment houtput hfold
  | gives hgives =>
    obtain ⟨hf, hss⟩ := h.gives_keep hregions hfragment hgives
    exact ⟨hf, List.forall_mem_append.mpr ⟨houtput, hss⟩⟩
  | routine hbuilt => exact ⟨hfragment.declare (hroutine _ rfl _ hbuilt) _, houtput⟩

/-- The nodes of a region keep what the fragment holds, one after another. -/
theorem buildNodes_keeps {nodes : List Node} {d d' : Draft}
    (hregions : ∀ n ∈ nodes, ∀ inner ∈ n.regions false, RegionKeeps E S declared dialect inner)
    (hroutines : ∀ n ∈ nodes, ∀ p, n.routine? = some p → ∀ r,
      buildRoutine (Machine.step dialect) p.1 p.2 = .ok r → declared r)
    (hfragment : Holds E declared start d.fragment) (houtput : ∀ s ∈ d.output, S start.inLoop s)
    (hrun : buildNodes (Machine.step dialect) nodes d = .ok ((), d')) :
    Holds E declared start d'.fragment ∧ ∀ s ∈ d'.output, S start.inLoop s := by
  induction nodes generalizing d with
  | nil =>
    cases hrun
    exact ⟨hfragment, houtput⟩
  | cons n nodes ih =>
    obtain ⟨middle, hmoves, hrest⟩ := buildNodes_cons_eq_ok hrun
    obtain ⟨hfirst, hregions⟩ := List.forall_mem_cons.mp hregions
    obtain ⟨hroutine, hroutines⟩ := List.forall_mem_cons.mp hroutines
    obtain ⟨hmiddle, hss⟩ := h.moves_keep hfirst hroutine hfragment houtput hmoves
    exact ih hregions hroutines hmiddle hss hrest

/-- A region gives statements with the property, if the routines declared in its fragment have
theirs. -/
theorem buildRegion_keeps (nodes : List Node)
    (hroutines : ∀ p ∈ routinesAmong (nodesWithin false nodes), ∀ r,
      buildRoutine (Machine.step dialect) p.1 p.2 = .ok r → declared r) :
    RegionKeeps E S declared dialect nodes := by
  induction nodes using regions_induction with
  | step nodes ih =>
    intro start f ss f' hf hregion
    obtain ⟨d, hrun, hclose⟩ := buildRegion_eq_ok hregion
    have hinner : ∀ n ∈ nodes, ∀ inner ∈ n.regions false,
        RegionKeeps E S declared dialect inner := by
      intro n hn inner hinner
      have hsub := (nodesWithin_sublist_within hinner).trans (within_sublist_of_mem hn)
      exact ih n hn inner (n.regions_subset hinner) fun p hp =>
        hroutines p ((hsub.filterMap Node.routine?).subset hp)
    have hnested : ∀ n ∈ nodes, ∀ p, n.routine? = some p → ∀ r,
        buildRoutine (Machine.step dialect) p.1 p.2 = .ok r → declared r := by
      intro n hn p hp
      exact hroutines p (List.mem_filterMap.mpr ⟨n, subset_nodesWithin nodes hn, hp⟩)
    obtain ⟨hd, hss⟩ := h.buildNodes_keeps (d := { fragment := f }) hinner hnested hf
      (List.forall_mem_nil _) hrun
    have hclosed := h.close_keeps hd hss
    rw [hclose] at hclosed
    exact hclosed

/-- A routine begins with the declaration of its local variables. The other statements of its body
have the property, and so has what its fragment holds. -/
theorem buildRoutine_keeps {header : RoutineHeader} {body : List Node} {r : Routine}
    (hroutines : ∀ p ∈ routinesAmong (nodesWithin false body), ∀ x,
      buildRoutine (Machine.step dialect) p.1 p.2 = .ok x → declared x)
    (hrun : buildRoutine (Machine.step dialect) header body = .ok r) :
    ∃ rest, r.body.statements = localsDeclaration r.fragment.locals ++ rest ∧
      (∀ s ∈ rest, S false s) ∧
      Holds E declared (Fragment.start header.codeName header.name header.argCount) r.fragment := by
  obtain ⟨ss, f, hregion, hstatements, hfragment⟩ := buildRoutine_eq_ok hrun
  rw [f.finish_eq] at hstatements hfragment
  obtain ⟨hf, hss⟩ := h.buildRegion_keeps body hroutines _ _ ss f (.begin _ _ _) hregion
  refine ⟨ss, ?_, hss, ?_⟩
  · rw [hstatements, hfragment]
  · rw [hfragment]
    exact { hf with }

end Regions

end Inherited

section InLoop

variable {dialect : Dialect}

/-- Any property that all trees have is inherited. What remains of the theorems above is what they
say of the fragment. -/
theorem inherited_true :
    Inherited (fun _ => True) (fun _ _ => True) (fun _ => True) (fun _ => True) where
  expr_iff _ := by simp
  literal_of_declared _ _ _ _ := trivial
  stmt _ _ _ _ _ _ := trivial
  static _ _ _ := trivial

/-- Building a region keeps what building does not touch. -/
theorem regionKeeps_true (dialect : Dialect) (nodes : List Node) :
    RegionKeeps (fun _ => True) (fun _ _ => True) (fun _ => True) dialect nodes :=
  inherited_true.buildRegion_keeps nodes fun _ _ _ _ => trivial

/-- Building a region does not change whether the code is in a loop. -/
theorem inLoop_buildRegion {nodes : List Node} {f f' : Fragment} {ss : List Stmt}
    (hrun : buildRegion (Machine.step dialect) nodes f = .ok (ss, f')) : f'.inLoop = f.inLoop :=
  (regionKeeps_true dialect nodes f f ss f' (.anything f) hrun).1.inLoop

/-- Popping a condition does not change whether the code is in a loop. -/
theorem inLoop_popCondition {construct : Construct} {f f' : Fragment} {e : Expr}
    (hpop : Action.popCondition construct f = .ok (e, f')) : f'.inLoop = f.inLoop :=
  (Holds.popCondition_keeps construct f (.anything f) e f' hpop).1.inLoop

/-- Closing a region does not change whether the code is in a loop. -/
theorem inLoop_close (d : Draft) : d.close.2.inLoop = d.fragment.inLoop :=
  (inherited_true.close_keeps (.anything d.fragment) fun _ _ => trivial).1.inLoop

/-- Building a node does not change whether the code is in a loop: a loop puts the mark back. -/
theorem Node.Moves.inLoop_eq {n : Node} {d d' : Draft}
    (hmoves : n.Moves (Machine.step dialect) d d') : d'.fragment.inLoop = d.fragment.inLoop :=
  (inherited_true.moves_keep (fun nodes _ => regionKeeps_true dialect nodes)
    (fun _ _ _ _ => trivial) (.anything d.fragment) (fun _ _ => trivial) hmoves).1.inLoop

end InLoop

end GmlDecompiler

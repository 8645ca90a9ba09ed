import GmlDecompiler.Program
import GmlDecompiler.Proofs.Building.Jumps
import GmlDecompiler.Proofs.Building.Stack
import GmlDecompiler.Proofs.Naming.Tidying

/-!
# What can go wrong

Building a tree fails only for a reason that lies in the code, and printing one only for a tree
that has no text. Tidying does not fail at all, so that an entry can be decompiled exactly if its
tree can be built, and every fault that is reported is one of these, labelled with the name of the
entry. The faults of a computation are found part by part, as the computation is put together.
-/

namespace GmlDecompiler

/-- The fault lies in the code: an instruction or a region does not fit what is around it. -/
def Fault.OfCode : Fault → Prop
  | .stackUnderflow _ | .dupOverread _ _ | .swapOverread _ _ _ _ | .malformed _ _
  | .missingCondition _ | .strayJump _ => True
  | .noFragment | .unexpected _ | .unprintable _ | .entry _ _ => False

/-- The fault lies in a tree that has no text. -/
def Fault.OfText : Fault → Prop
  | .unprintable _ | .unexpected .structMember => True
  | .stackUnderflow _ | .dupOverread _ _ | .swapOverread _ _ _ _ | .malformed _ _
  | .missingCondition _ | .strayJump _ | .noFragment | .unexpected .block | .entry _ _ => False

/-- The fault is one of a single instruction. -/
def Fault.OfInstruction : Fault → Prop
  | .stackUnderflow _ | .dupOverread _ _ | .swapOverread _ _ _ _ | .malformed _ _ => True
  | .missingCondition _ | .strayJump _ | .noFragment | .unexpected _ | .unprintable _
  | .entry _ _ => False

/-- The fault lies in code, and it is no jump without a loop if the jumps of the code fit. -/
structure Fault.OfRegion (fits : Prop) (fault : Fault) : Prop where
  ofCode : fault.OfCode
  notStray : fits → ∀ jump, fault ≠ .strayJump jump

/-- A fault of an instruction lies in the code, and it is no stray jump. -/
theorem Fault.OfInstruction.ofRegion {fault : Fault} (hfault : fault.OfInstruction) (fits : Prop) :
    fault.OfRegion fits := by
  cases fault with
  | stackUnderflow | dupOverread | swapOverread | malformed => exact ⟨trivial, fun _ _ => nofun⟩
  | missingCondition | strayJump | noFragment | unexpected | unprintable | entry => cases hfault

section Code

/-- If the action fails, the fault is one of an instruction; and it leaves the loop as it is. -/
abbrev Action.FailsAlone (looped : Bool) {α : Type} (x : Action α) : Prop :=
  FailsWith (fun f : Fragment => f.inLoop = looped) Fault.OfInstruction x

variable {looped : Bool}

/-- Popping an expression leaves the loop as it is. -/
theorem Fragment.inLoop_of_tryPop {f f' : Fragment} {e : Expr} (hpop : f.tryPop = some (e, f')) :
    f'.inLoop = f.inLoop := by
  unfold tryPop at hpop
  split at hpop
  · cases hpop
  · cases hpop
    rfl

namespace Action

/-- Popping an expression fails on an empty stack. -/
theorem pop_fails (address : UInt32) : (pop address).FailsAlone looped := by
  intro f hf
  unfold pop
  split
  · exact .ok ((Fragment.inLoop_of_tryPop ‹_›).trans hf)
  · exact .error trivial

/-- Popping several expressions fails on a stack with fewer. -/
theorem popMany_fails (address : UInt32) (count : Nat) :
    (popMany address count).FailsAlone looped := by
  intro f hf
  unfold popMany
  split
  · exact .ok hf
  · exact .error trivial

end Action

namespace Instruction

variable (d : Dialect) (i : Instruction)

/-- Duplicating and swapping fail on a stack that is too short, or on a region that ends inside a
slot. -/
theorem performDuplicate_fails : i.performDuplicate.FailsAlone looped := by
  have htake (bytes : Int) (stack : List Expr) :
      Raises Fault.OfInstruction (i.takeSegment bytes stack) := by
    unfold takeSegment
    split
    · exact .ok _
    · exact .error trivial
  have hcopy (stack : List Expr) : Raises Fault.OfInstruction (i.copyRegion stack) := by
    refine .bind (htake _ _) fun segment => ?_
    split
    · exact .error trivial
    · exact .ok _
  have hswap (stack : List Expr) : Raises Fault.OfInstruction (i.swapRegions stack) := by
    unfold swapRegions
    split
    · exact .ok _
    · refine .bind (htake _ _) fun top => .bind (htake _ _) fun bottom => ?_
      split
      · exact .error trivial
      · exact .ok _
  intro f hf
  unfold performDuplicate
  split
  · exact (Ends.of_raises (hcopy _)).bind fun _ _ => .ok hf
  · exact (Ends.of_raises (hswap _)).bind fun _ _ => .ok hf

/-- Fetching a function does not fail: a name that is not pending is pushed as a name. -/
theorem takeFunction_fails (name : String) : (takeFunction name).FailsAlone looped := by
  intro f hf
  unfold takeFunction
  split
  · rename_i htake
    obtain ⟨r, -, htaken⟩ := Option.map_eq_some_iff.mp htake
    cases htaken
    exact .ok hf
  · exact .ok hf

/-- Dropping an expression does not fail, not even on an empty stack. -/
theorem discard_fails : discard.FailsAlone looped := by
  intro f hf
  unfold discard
  split
  · exact .ok hf
  · exact .ok ((Fragment.inLoop_of_tryPop ‹_›).trans hf)

/-- The basic actions fail only with faults of an instruction. -/
theorem failsAlone_compositional : Action.Compositional fun _ x => x.FailsAlone looped where
  pure := .pure
  bind := .bind
  malformed _ _ := .throw trivial
  pop := Action.pop_fails
  popMany := Action.popMany_fails
  push _ := .modify fun _ hf => hf
  noteLocal name := .modify fun f hf => by
    rw [f.noteLocal_eq]
    exact hf
  parentCall _ := .modify fun _ hf => hf
  duplicate := performDuplicate_fails

/-- An instruction fails only with a fault of an instruction, as all that it is made of does. -/
theorem perform_fails : (i.perform d).FailsAlone looped :=
  i.perform_of failsAlone_compositional d (fun name _ => takeFunction_fails name)
    fun _ => discard_fails

end Instruction

/-- Replaying one instruction fails only with a fault of that instruction, and leaves the loop as it
is. -/
theorem Machine.step_ends {fits : Prop} (d : Dialect) (m : Machine) (i : Instruction)
    (hm : m.fragment.inLoop = looped) :
    Ends (fun m' => m'.fragment.inLoop = looped) (Fault.OfRegion fits) (m.step d i) :=
  ((i.perform_fails d m.fragment hm).mono fun _ hfault => hfault.ofRegion fits).bind
    fun _ hf => .ok hf

/-- If the computation fails, the fault lies in the code, and it is no jump without a loop if the
jumps of the code fit; and it leaves the loop as it is. -/
abbrev Building.FailsIn (looped : Bool) (fits : Prop) {α : Type} (x : Building α) : Prop :=
  FailsWith (fun d : Draft => d.fragment.inLoop = looped) (Fault.OfRegion fits) x

variable {fits : Prop}

namespace Building

variable {α : Type}

/-- Popping a condition fails if there is none. -/
theorem popCondition_fails (construct : Construct) :
    (onFragment (Action.popCondition construct)).FailsIn looped fits := by
  intro d hd
  unfold onFragment Action.popCondition
  split
  · exact .ok ((Fragment.inLoop_of_tryPop ‹_›).trans hd)
  · exact .error ⟨trivial, fun _ _ => nofun⟩

/-- Pushing an expression does not fail. -/
theorem push_fails (shape : Shape) : (onFragment (Action.push shape)).FailsIn looped fits :=
  fun _ hd => .ok hd

/-- Appending statements does not fail. -/
theorem emit_fails (ss : List Stmt) : (emit ss).FailsIn looped fits :=
  .modify fun _ hd => hd

/-- Straight code fails only with a fault of one of its instructions. -/
theorem replayAll_fails (d : Dialect) (code : List Instruction) :
    (replayAll (Machine.step d) code).FailsIn looped fits := by
  have hall (m : Machine) (hm : m.fragment.inLoop = looped) :
      Ends (fun m' => m'.fragment.inLoop = looped) (Fault.OfRegion fits)
        (code.foldlM (Machine.step d) m) := by
    induction code generalizing m with
    | nil => exact .ok hm
    | cons i code ih => exact .bind (m.step_ends d i hm) fun next hnext => ih next hnext
  exact fun draft hdraft => (hall _ hdraft).bind fun _ hm => .ok hm

/-- A region of its own fails only if the code in it does. -/
theorem region_fails {body : Building Unit} (hbody : body.FailsIn looped fits) :
    (region body).FailsIn looped fits :=
  fun d hd => (hbody { fragment := d.fragment } hd).bind fun (_, inner) hinner =>
    .ok ((inLoop_close inner).trans hinner)

/-- The loops around a nested routine are not around its body. -/
theorem nested_fails {body : Building Unit} (hbody : body.FailsIn false fits)
    (header : RoutineHeader) : (nested header body).FailsIn looped fits := by
  intro d hd
  refine (hbody _ rfl).bind fun _ _ => .ok ?_
  unfold Draft.declare
  dsimp only
  split <;> exact hd

/-- The body of a loop may jump, wherever the loop stands. -/
theorem inLoop_fails {body : Building α} (hbody : body.FailsIn true fits) :
    (inLoop body).FailsIn looped fits :=
  fun _ hd => (hbody _ rfl).bind fun _ _ => .ok hd

/-- Code that a cleanup is pending around fails only if the code itself does. -/
theorem guardedBy_fails {body : Building α} (hbody : body.FailsIn looped fits)
    (cleanup : Option (List Stmt)) : (guardedBy cleanup body).FailsIn looped fits := by
  cases cleanup with
  | none => exact hbody
  | some statements =>
    refine .bind (.modify fun _ hd => hd) fun _ => ?_
    refine .bind hbody fun _ => ?_
    refine .bind (.modify fun _ hd => hd) fun _ => ?_
    exact .pure _

/-- A jump fails only outside of a loop. -/
theorem jump_fails (jump : LoopJump) (s : Stmt) (hfits : fits → looped = true) :
    (Building.jump jump s).FailsIn looped fits := by
  intro d hd
  simp only [Building.jump, bind, StateT.bind, get_apply, Except.bind]
  split
  · exact .ok hd
  · rename_i hloop
    exact .error ⟨trivial, fun hfit => absurd (hd.trans (hfits hfit)) hloop⟩

end Building

mutual

/-- A node fails to be built only for reasons that lie in the code, and not for a jump if its jumps
fit. -/
theorem Node.build_fails (d : Dialect) (looped : Bool) (n : Node)
    (hfits : fits → n.jumpsFit looped = true) :
    (n.build (Machine.step d)).FailsIn looped fits := by
  match n with
  | .block code => exact Building.replayAll_fails d code.code
  | .branch thenPart elsePart =>
    simp only [Node.jumpsFit, Bool.and_eq_true, imp_and] at hfits
    refine .bind (Building.popCondition_fails _) fun _ => ?_
    refine .bind (Building.region_fails (buildNodes_fails d looped thenPart hfits.1)) fun _ => ?_
    exact .bind (buildOptional_fails d looped elsePart hfits.2) fun _ => Building.emit_fails _
  | .chain logic conditions =>
    exact .bind (buildConditions_fails d looped conditions hfits) fun _ => Building.push_fails _
  | .loop condition body =>
    simp only [Node.jumpsFit, Bool.and_eq_true, imp_and] at hfits
    refine .bind (Building.region_fails (buildNodes_fails d looped condition hfits.1)) fun _ => ?_
    refine .bind (Building.emit_fails _) fun _ => ?_
    refine .bind (Building.popCondition_fails _) fun _ => ?_
    have hbody := Building.region_fails (buildNodes_fails d true body hfits.2)
    exact .bind (Building.inLoop_fails hbody) fun _ => Building.emit_fails _
  | .leave => exact Building.jump_fails _ _ hfits
  | .again => exact Building.jump_fails _ _ hfits
  | .guarded body cleanup =>
    simp only [Node.jumpsFit, Bool.and_eq_true, imp_and] at hfits
    refine .bind (buildOptional_fails d looped cleanup hfits.2) fun after => ?_
    have hbody := Building.region_fails (buildNodes_fails d looped body hfits.1)
    exact .bind (Building.guardedBy_fails hbody after) fun _ => Building.emit_fails _
  | .statics body =>
    exact .bind (Building.region_fails (buildNodes_fails d looped body hfits)) fun _ =>
      Building.emit_fails _
  | .routine header body => exact Building.nested_fails (buildNodes_fails d false body hfits) header

/-- The nodes of a region fail to be built only for reasons that lie in their code. -/
theorem buildNodes_fails (d : Dialect) (looped : Bool) (nodes : List Node)
    (hfits : fits → nodesJumpsFit looped nodes = true) :
    (buildNodes (Machine.step d) nodes).FailsIn looped fits := by
  match nodes with
  | [] => exact .pure _
  | n :: nodes =>
    simp only [nodesJumpsFit, Bool.and_eq_true, imp_and] at hfits
    exact .bind (n.build_fails d looped hfits.1) fun _ => buildNodes_fails d looped nodes hfits.2

/-- A region that may be missing fails to be built only for reasons that lie in its code. -/
theorem buildOptional_fails (d : Dialect) (looped : Bool) (part : Option (List Node))
    (hfits : fits → optionalJumpsFit looped part = true) :
    (buildOptional (Machine.step d) part).FailsIn looped fits := by
  match part with
  | none => exact .pure _
  | some nodes =>
    exact .bind (Building.region_fails (buildNodes_fails d looped nodes hfits)) fun _ => .pure _

/-- The conditions of a chain fail to be built only for reasons that lie in their code, or if one of
them gives no condition. -/
theorem buildConditions_fails (d : Dialect) (looped : Bool) (regions : List (List Node))
    (hfits : fits → regionsJumpsFit looped regions = true) :
    (buildConditions (Machine.step d) regions).FailsIn looped fits := by
  match regions with
  | [] => exact .pure _
  | nodes :: regions =>
    simp only [regionsJumpsFit, Bool.and_eq_true, imp_and] at hfits
    refine .bind (Building.region_fails (buildNodes_fails d looped nodes hfits.1)) fun _ => ?_
    refine .bind (Building.emit_fails _) fun _ => ?_
    refine .bind (Building.popCondition_fails _) fun _ => ?_
    exact .bind (buildConditions_fails d looped regions hfits.2) fun _ => .pure _

end

/-- An entry fails to be built only for reasons that lie in its code, and not for a jump if its
jumps fit. -/
theorem Entry.build_raises (d : Dialect) (entry : Entry) :
    Raises (Fault.OfRegion (entry.jumpsFit = true)) (entry.build d) := by
  have hnodes : (buildNodes (Machine.step d) entry.body).FailsIn false (entry.jumpsFit = true) :=
    buildNodes_fails d false entry.body id
  exact .bind (.bind (hnodes _ rfl).raises fun _ => .ok _) fun _ => .ok _

end Code

section Text

/-- If the result is a fault, it lies in a tree that has no text. -/
abbrev RaisesInText {α : Type} (result : Except Fault α) : Prop :=
  Raises Fault.OfText result

/-- Parameters have a text unless a default value has none. -/
theorem parameterSteps_raises {defaults : List (Nat × Except Fault (List Step))}
    (hdefaults : ∀ p ∈ defaults, RaisesInText p.2) (index : Nat) (names : List String) :
    RaisesInText (parameterSteps defaults index names) := by
  induction names generalizing index with
  | nil => exact .ok _
  | cons name rest ih =>
    have hrest := ih (index + 1)
    rw [parameterSteps]
    split
    · rename_i value hlookup
      obtain ⟨before, after, hsplit, -⟩ := List.lookup_eq_some_iff.mp hlookup
      have hmem : (index, value) ∈ defaults := by simp [hsplit]
      refine .bind (hdefaults _ hmem) fun default => ?_
      refine .bind (.ok _) fun shown => ?_
      refine .bind hrest fun steps => ?_
      exact .ok _
    · refine .bind (.ok _) fun shown => ?_
      refine .bind hrest fun steps => ?_
      exact .ok _

mutual

/-- An expression has a text unless a tree in it has none. -/
theorem Expr.steps_raises (e : Expr) : RaisesInText e.steps := by
  match e with
  | ⟨shape, _, _, _⟩ =>
    refine shape.steps_raises.bind fun steps => ?_
    exact .ok _
termination_by structural e

/-- A shape has a text unless a tree in it has none, or it constructs what is not called by name. -/
theorem Shape.steps_raises (shape : Shape) : RaisesInText shape.steps := by
  match shape with
  | .int16 _ | .int32 _ | .int64 _ | .double _ | .string _ | .boolean _ | .keyword _
  | .function _ | .constant _ => exact .ok _
  | .access a => exact a.steps_raises
  | .unary _ operand =>
    refine operand.steps_raises.bind fun steps => ?_
    exact .ok _
  | .binary _ left right =>
    refine left.steps_raises.bind fun leftSteps => ?_
    refine right.steps_raises.bind fun rightSteps => ?_
    exact .ok _
  | .call _ arguments =>
    refine (separatedSteps_raises _ arguments).bind fun steps => ?_
    exact .ok _
  | .callValue callee _ arguments =>
    refine callee.steps_raises.bind fun calleeSteps => ?_
    refine (separatedSteps_raises _ arguments).bind fun steps => ?_
    exact .ok _
  | .construct callee arguments =>
    rw [Shape.steps]
    split
    · refine callee.steps_raises.bind fun calleeSteps => ?_
      refine (separatedSteps_raises _ arguments).bind fun steps => ?_
      exact .ok _
    · exact .error trivial
  | .chain _ conditions => exact separatedSteps_raises _ conditions
  | .routine routine => exact routine.steps_raises
  | .struct routine => exact routine.structSteps_raises
termination_by structural shape

/-- An access has a text unless a tree in it has none. -/
theorem Access.steps_raises (a : Access) : RaisesInText a.steps := by
  match a with
  | ⟨_, _, _, _, _, some _⟩ => exact .ok _
  | ⟨target, _, owner, indices, _, none⟩ =>
    -- the name and the indices come last, whatever is written of the owner
    have hend (before : List Step) :
        RaisesInText (indexSteps indices >>= fun after =>
          .ok (before ++ .write target.name :: after)) := by
      refine (indexSteps_raises indices).bind fun after => ?_
      exact .ok _
    rw [Access.steps]
    cases owner.instance? with
    | none =>
      refine owner.steps_raises.bind fun ownerSteps => ?_
      exact hend (ownerSteps ++ [.write "."])
    | some value =>
      cases himplicit : value.isImplicit with
      | true =>
        simp only [himplicit]
        exact hend []
      | false =>
        simp only [himplicit]
        exact hend [.write value.text, .write "."]
termination_by structural a

/-- Indices have a text unless a tree in them has none. -/
theorem indexSteps_raises (indices : Option (List Expr)) : RaisesInText (indexSteps indices) := by
  match indices with
  | none => exact .ok _
  | some es =>
    refine (separatedSteps_raises _ es).bind fun steps => ?_
    exact .ok _
termination_by structural indices

/-- Expressions with something between them have a text unless one of them has none. -/
theorem separatedSteps_raises (separator : List Step) (es : List Expr) :
    RaisesInText (separatedSteps separator es) := by
  match es with
  | [] => exact .ok _
  | [e] => exact e.steps_raises
  | e :: second :: es =>
    refine e.steps_raises.bind fun first => ?_
    refine (separatedSteps_raises separator (second :: es)).bind fun rest => ?_
    exact .ok _
termination_by structural es

/-- A statement has a text unless a tree in it has none. -/
theorem Stmt.steps_raises (s : Stmt) : RaisesInText s.steps := by
  match s with
  | .block block => exact block.steps_raises
  | .eval value => exact value.steps_raises
  | .assign target value | .static target value =>
    refine target.steps_raises.bind fun targetSteps => ?_
    refine value.steps_raises.bind fun valueSteps => ?_
    exact .ok _
  | .ret value =>
    refine value.steps_raises.bind fun steps => ?_
    exact .ok _
  | .exit | .leave | .again | .locals _ | .enum _ => exact .ok _
  | .branch condition thenPart elsePart =>
    refine condition.steps_raises.bind fun conditionSteps => ?_
    refine thenPart.steps_raises.bind fun thenSteps => ?_
    refine (continuedSteps_raises _ elsePart).bind fun elseSteps => ?_
    exact .ok _
  | .loop condition body =>
    refine condition.steps_raises.bind fun conditionSteps => ?_
    refine body.steps_raises.bind fun bodySteps => ?_
    exact .ok _
  | .guarded body cleanup =>
    refine body.steps_raises.bind fun bodySteps => ?_
    refine (continuedSteps_raises _ cleanup).bind fun cleanupSteps => ?_
    exact .ok _
  | .routine routine => exact routine.steps_raises
termination_by structural s

/-- A block that goes on after another has a text unless a tree in it has none. -/
theorem continuedSteps_raises (keyword : String) (block : Option Block) :
    RaisesInText (continuedSteps keyword block) := by
  match block with
  | none => exact .ok _
  | some block =>
    refine block.steps_raises.bind fun steps => ?_
    exact .ok _
termination_by structural block

/-- A block has a text unless a tree in it has none. -/
theorem Block.steps_raises (block : Block) : RaisesInText block.steps := by
  match block with
  | ⟨statements, _⟩ =>
    refine (lineSteps_raises _ statements).bind fun steps => ?_
    exact .ok _
termination_by structural block

/-- Statements have a text unless one of them has none. -/
theorem lineSteps_raises (blankDue : Bool) (ss : List Stmt) :
    RaisesInText (lineSteps blankDue ss) := by
  match ss with
  | [] => exact .ok _
  | s :: rest =>
    refine s.steps_raises.bind fun steps => ?_
    refine (lineSteps_raises _ rest).bind fun restSteps => ?_
    exact .ok _
termination_by structural ss

/-- A routine has a text unless a tree in it has none. -/
theorem Routine.steps_raises (r : Routine) : RaisesInText r.steps := by
  match r with
  | ⟨_, _, body, fragment, defaults, parameters, _, _⟩ =>
    have hparameters := parameterSteps_raises (defaultSteps_raises defaults) 0 parameters
    refine hparameters.bind fun parameterSteps => ?_
    refine fragment.parentCallSteps_raises.bind fun parentSteps => ?_
    refine body.steps_raises.bind fun bodySteps => ?_
    exact .ok _
termination_by structural r

/-- Each default value has a text unless a tree in it has none. -/
theorem defaultSteps_raises (defaults : List (Nat × Expr)) :
    ∀ p ∈ defaultSteps defaults, RaisesInText p.2 := by
  match defaults with
  | [] => simp [defaultSteps]
  | (_, value) :: rest =>
    have hvalue := value.steps_raises
    have hrest := defaultSteps_raises rest
    exact List.forall_mem_cons.mpr ⟨hvalue, hrest⟩
termination_by structural defaults

/-- The call of the parent constructor has a text unless a tree in it has none. -/
theorem Fragment.parentCallSteps_raises (f : Fragment) : RaisesInText f.parentCallSteps := by
  match f with
  | ⟨_, _, _, _, _, _, _, _, _, _, _, _, none⟩ => exact .ok _
  | ⟨_, _, _, _, _, _, _, _, _, _, _, _, some call⟩ =>
    refine call.steps_raises.bind fun steps => ?_
    exact .ok _
termination_by structural f

/-- A struct literal has a text if its body has. -/
theorem Routine.structSteps_raises (r : Routine) : RaisesInText r.structSteps := by
  match r with
  | ⟨_, _, body, _, _, _, _, _⟩ => exact body.structSteps_raises
termination_by structural r

/-- A struct literal has a text if it holds nothing but assignments to variables. -/
theorem Block.structSteps_raises (block : Block) : RaisesInText block.structSteps := by
  match block with
  | ⟨statements, _⟩ =>
    rw [Block.structSteps]
    split
    · exact .error trivial
    · split
      · exact .ok _
      · refine (memberSteps_raises statements).bind fun steps => ?_
        exact .ok _
termination_by structural block

/-- The members of a struct literal have a text unless a value has none, or one of them is
no variable. -/
theorem memberSteps_raises (ss : List Stmt) : RaisesInText (memberSteps ss) := by
  match ss with
  | [] => exact .ok _
  | s :: rest =>
    have hrest := memberSteps_raises rest
    match s with
    | .assign target value =>
      rw [memberSteps]
      split
      · exact .error trivial
      · refine value.steps_raises.bind fun valueSteps => ?_
        refine hrest.bind fun restSteps => ?_
        exact .ok _
    | .block _ | .eval _ | .static _ _ | .ret _ | .exit | .leave | .again | .branch _ _ _
    | .loop _ _ | .guarded _ _ | .locals _ | .routine _ | .enum _ => exact hrest
termination_by structural ss

end

/-- A tree fails to be printed only if a tree in it has no text. -/
theorem Decompiled.print_raises (c : Config) (d : Decompiled) : RaisesInText (d.print c) :=
  .bind d.root.steps_raises fun _ => .ok _

end Text

namespace Config

variable {c : Config} {entry : Entry}

/-- Tidying the tree of an entry never fails. -/
theorem tidyEntry_eq_ok (c : Config) (block : Block) (f : Fragment) :
    ∃ root f', c.tidyEntry (.block block) f = .ok (root, f') := by
  obtain ⟨block', f', hrun, -⟩ := block.tidy_passes c [] f
  have hroot : (Stmt.block block).tidy c [f] = .ok (.block block', [f']) :=
    Tidying.bind_eq hrun rfl
  obtain ⟨root, henums⟩ : ∃ root, c.declareEnums (.block block') = .ok root := ⟨_, rfl⟩
  refine ⟨root, f', ?_⟩
  simp only [tidyEntry, hroot, henums, bind, Except.bind, pure_eq_ok]

/-- An entry that can be built can be decompiled. -/
theorem decompile_of_build {block : Block} {f : Fragment}
    (hbuild : entry.build c.dialect = .ok (block, f)) : ∃ d, c.decompile entry = .ok d := by
  obtain ⟨root, f', htidy⟩ := c.tidyEntry_eq_ok block f
  exact ⟨⟨root, f'⟩, by
    simp only [decompile, hbuild, htidy, bind, Except.bind, Except.mapError, pure_eq_ok]⟩

/-- A fault of building is reported with the name of the entry. -/
theorem decompile_of_build_error {fault : Fault} (hbuild : entry.build c.dialect = .error fault) :
    c.decompile entry = .error (.entry entry.name fault) := by
  simp only [decompile, hbuild, bind, Except.bind, Except.mapError]

/-- A decompiled entry is printed, or a fault of printing is reported with its name. -/
theorem decompileToText_of_decompile {d : Decompiled} (hrun : c.decompile entry = .ok d) :
    (∃ text, c.decompileToText entry = .ok text) ∨
      ∃ fault, fault.OfText ∧ c.decompileToText entry = .error (.entry entry.name fault) := by
  have htext : c.decompileToText entry =
      Except.mapError (Fault.entry entry.name) (d.print c) := by
    simp only [decompileToText, hrun, bind, Except.bind]
  cases hprint : d.print c with
  | ok text => exact .inl ⟨text, by rw [htext, hprint]; rfl⟩
  | error fault =>
    exact .inr ⟨fault, d.print_raises c fault hprint, by rw [htext, hprint]; rfl⟩

end Config

/-- The faults of decompilation. With its fragments kept on a stack, where one could be missing, an
entry is built with the same result or the same fault. An entry can be decompiled exactly if it can
be built. If it cannot, the fault lies in its code and is reported with its name. An entry that is
decompiled is printed, unless a tree in it has no text, which is reported in the same way. Nothing
else is ever reported. -/
theorem decompile_faults_classified (c : Config) (entry : Entry) :
    entry.buildOn c.dialect = entry.build c.dialect ∧
    ((∃ d, c.decompile entry = .ok d) ↔ ∃ built, entry.build c.dialect = .ok built) ∧
    (∀ fault, entry.build c.dialect = .error fault →
      fault.OfCode ∧ c.decompile entry = .error (.entry entry.name fault)) ∧
    (∀ d, c.decompile entry = .ok d →
      (∃ text, c.decompileToText entry = .ok text) ∨
        ∃ fault, fault.OfText ∧ c.decompileToText entry = .error (.entry entry.name fault)) ∧
    ∀ fault, c.decompile entry = .error fault ∨ c.decompileToText entry = .error fault →
      ∃ cause, fault = .entry entry.name cause ∧ (cause.OfCode ∨ cause.OfText) := by
  have hraises := entry.build_raises c.dialect
  refine ⟨entry.buildOn_eq c.dialect, ?_⟩
  cases hbuild : entry.build c.dialect with
  | ok built =>
    obtain ⟨d, hd⟩ := Config.decompile_of_build hbuild
    refine ⟨⟨fun _ => ⟨built, rfl⟩, fun _ => ⟨d, hd⟩⟩, fun fault herror => (nomatch herror),
      fun _ => Config.decompileToText_of_decompile, ?_⟩
    rintro fault (herror | herror)
    · rw [hd] at herror
      cases herror
    · rcases Config.decompileToText_of_decompile hd with ⟨text, htext⟩ | ⟨cause, hcause, htext⟩
      · rw [htext] at herror
        cases herror
      · rw [htext] at herror
        cases herror
        exact ⟨cause, rfl, .inr hcause⟩
  | error cause =>
    have hcause := (hraises cause hbuild).ofCode
    have hrun := Config.decompile_of_build_error hbuild
    have htext : c.decompileToText entry = .error (.entry entry.name cause) := by
      simp only [Config.decompileToText, hrun, bind, Except.bind]
    refine ⟨⟨?_, fun ⟨built, hbuilt⟩ => (nomatch hbuilt)⟩, ?_, ?_, ?_⟩
    · rintro ⟨d, hd⟩
      rw [hrun] at hd
      cases hd
    · rintro fault herror
      cases herror
      exact ⟨hcause, hrun⟩
    · intro d hd
      rw [hrun] at hd
      cases hd
    · rintro fault (herror | herror)
      · exact ⟨cause, Except.error.inj (herror.symm.trans hrun), .inl hcause⟩
      · exact ⟨cause, Except.error.inj (herror.symm.trans htext), .inl hcause⟩

/-- A struct literal whose body assigns to the argument that its value stands for: there is
no variable left to name the member. -/
example :
    Config.decompileToText {} ⟨"gml_Object_player_Create_0", 0,
      [.routine ⟨"gml_Script____struct___1", none, false, 0⟩
        [.block ⟨0, [.pushImmediate 5, .popVariable ⟨"argument0", .argument⟩ .normal .variable]⟩],
      .block ⟨0, [.pushImmediate 7,
        ((Instruction.plain .push).withTypes .int32 .int32).withFunction
          "gml_Script____struct___1" 0,
        .call Reserved.newObject 2, .popVariable ⟨"stats", .own⟩ .normal .variable]⟩]⟩ =
      .error (.entry "gml_Object_player_Create_0" (.unexpected .structMember)) := by
  decide +kernel

end GmlDecompiler

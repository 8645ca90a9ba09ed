import GmlDecompiler.Program
import GmlDecompiler.Proofs.Building.Instructions

/-!
# Addresses do not matter

Where an instruction stands in the code is told by nothing but the faults that it causes. Entries
that differ in the addresses of their instructions and of their blocks are built in the same way:
either both give the same tree in the same fragment, or both fail for the same reason. What is made
of the tree afterwards does not see the code any more.
-/

namespace GmlDecompiler

/-- A straight run of instructions, all moved to the same address. -/
def CodeBlock.withoutAddresses (block : CodeBlock) : CodeBlock where
  start := 0
  code := block.code.map (·.atAddress 0)

mutual

/-- The node with the addresses in it forgotten. -/
def Node.withoutAddresses : Node → Node
  | .block code => .block code.withoutAddresses
  | .branch thenPart elsePart =>
    .branch (nodesWithoutAddresses thenPart) (optionalWithoutAddresses elsePart)
  | .chain logic conditions => .chain logic (regionsWithoutAddresses conditions)
  | .loop condition body => .loop (nodesWithoutAddresses condition) (nodesWithoutAddresses body)
  | .leave => .leave
  | .again => .again
  | .guarded body cleanup =>
    .guarded (nodesWithoutAddresses body) (optionalWithoutAddresses cleanup)
  | .statics body => .statics (nodesWithoutAddresses body)
  | .routine header body => .routine header (nodesWithoutAddresses body)

/-- The nodes of a region with the addresses in them forgotten. -/
def nodesWithoutAddresses : List Node → List Node
  | [] => []
  | n :: nodes => n.withoutAddresses :: nodesWithoutAddresses nodes

/-- A region, if there is one, with the addresses in it forgotten. -/
def optionalWithoutAddresses : Option (List Node) → Option (List Node)
  | none => none
  | some nodes => some (nodesWithoutAddresses nodes)

/-- Regions with the addresses in them forgotten. -/
def regionsWithoutAddresses : List (List Node) → List (List Node)
  | [] => []
  | nodes :: regions => nodesWithoutAddresses nodes :: regionsWithoutAddresses regions

end

/-- The entry with the addresses in its code forgotten. -/
def Entry.withoutAddresses (entry : Entry) : Entry :=
  { entry with body := nodesWithoutAddresses entry.body }

/-- The fault with the address that it names forgotten. -/
def Fault.withoutAddress : Fault → Fault
  | .stackUnderflow _ => .stackUnderflow 0
  | .malformed _ defect => .malformed 0 defect
  | .entry name cause => .entry name cause.withoutAddress
  | .dupOverread requested remaining => .dupOverread requested remaining
  | .swapOverread topRequested topRemaining bottomRequested bottomRemaining =>
    .swapOverread topRequested topRemaining bottomRequested bottomRemaining
  | .missingCondition construct => .missingCondition construct
  | .strayJump jump => .strayJump jump
  | .noFragment => .noFragment
  | .unexpected expected => .unexpected expected
  | .unprintable what => .unprintable what

/-- Two computations come to the same: both give the same, or both fail, and the faults differ at
most in the address that they name. -/
inductive Agree {α : Type} : Except Fault α → Except Fault α → Prop
  | ok (a : α) : Agree (.ok a) (.ok a)
  | error {first second : Fault} :
    first.withoutAddress = second.withoutAddress → Agree (.error first) (.error second)

namespace Agree

variable {α β : Type} {x y z : Except Fault α}

/-- A computation comes to the same as itself. -/
theorem refl (x : Except Fault α) : Agree x x := by
  cases x with
  | ok a => exact .ok a
  | error fault => exact .error rfl

/-- It does not matter which of two computations comes first. -/
theorem symm (hxy : Agree x y) : Agree y x := by
  cases hxy with
  | ok a => exact .ok a
  | error hfaults => exact .error hfaults.symm

/-- Computations that come to the same as a third one come to the same. -/
theorem trans (hxy : Agree x y) (hyz : Agree y z) : Agree x z := by
  cases hxy with
  | ok a => exact hyz
  | error hfirst =>
    cases hyz with
    | error hsecond => exact .error (hfirst.trans hsecond)

/-- Computations in a row come to the same if those that they consist of do. They go on from the
same value, since only faults may differ. -/
theorem bind {k l : α → Except Fault β} (hxy : Agree x y) (hkl : ∀ a, Agree (k a) (l a)) :
    Agree (x >>= k) (y >>= l) := by
  cases hxy with
  | ok a => exact hkl a
  | error hfaults => exact .error hfaults

/-- A choice comes to the same if both branches do. -/
theorem ite {p : Prop} [Decidable p] {x' y' : Except Fault α} (hthen : Agree x y)
    (helse : Agree x' y') : Agree (if p then x else x') (if p then y else y') := by
  split
  · exact hthen
  · exact helse

/-- Faults may be labelled with the name of an entry. -/
theorem mapError (hxy : Agree x y) (name : String) :
    Agree (x.mapError (Fault.entry name)) (y.mapError (Fault.entry name)) := by
  cases hxy with
  | ok a => exact .ok a
  | error hfaults => exact .error (congrArg (Fault.entry name) hfaults)

end Agree

/-- Two computations come to the same in every state. -/
def AgreeInAll {σ α : Type} (x y : StateT σ (Except Fault) α) : Prop :=
  ∀ s, Agree (x s) (y s)

namespace AgreeInAll

variable {σ α β : Type} {x y : StateT σ (Except Fault) α}

/-- A computation comes to the same as itself in every state. -/
theorem refl (x : StateT σ (Except Fault) α) : AgreeInAll x x :=
  fun s => .refl (x s)

/-- Computations in a row come to the same in every state: the first ones leave the same state
behind. -/
theorem bind {k l : α → StateT σ (Except Fault) β} (hxy : AgreeInAll x y)
    (hkl : ∀ a, AgreeInAll (k a) (l a)) : AgreeInAll (x >>= k) (y >>= l) :=
  fun s => (hxy s).bind fun (a, middle) => hkl a middle

end AgreeInAll

namespace Action

/-- Popping an expression fails in the same way wherever the instruction stands. -/
theorem pop_agrees (first second : UInt32) : AgreeInAll (pop first) (pop second) := by
  intro f
  unfold pop
  split
  · exact .ok _
  · exact .error rfl

/-- Popping several expressions fails in the same way wherever the instruction stands. -/
theorem popMany_agrees (first second : UInt32) (count : Nat) :
    AgreeInAll (popMany first count) (popMany second count) := by
  intro f
  unfold popMany
  split
  · exact .ok _
  · exact .error rfl

end Action

namespace Instruction

variable (d : Dialect) (i : Instruction) (address : UInt32)

/-- A segment of the stack is taken, or is too short, wherever the instruction stands. -/
theorem takeSegment_agrees (bytes : Int) (stack : List Expr) :
    Agree (i.takeSegment bytes stack) ((i.atAddress address).takeSegment bytes stack) := by
  unfold takeSegment
  split
  · exact .ok _
  · exact .error rfl

/-- Duplicating and swapping do the same wherever the instruction stands. -/
theorem performDuplicate_agrees :
    AgreeInAll i.performDuplicate (i.atAddress address).performDuplicate := by
  have hcopy (stack : List Expr) :
      Agree (i.copyRegion stack) ((i.atAddress address).copyRegion stack) :=
    .bind (i.takeSegment_agrees address _ _) fun _ => .refl _
  have hswap (stack : List Expr) :
      Agree (i.swapRegions stack) ((i.atAddress address).swapRegions stack) := by
    refine .ite (.refl _) (.bind (i.takeSegment_agrees address _ _) fun top => ?_)
    exact .bind (i.takeSegment_agrees address _ _) fun bottom => .refl _
  intro f
  unfold performDuplicate
  exact .ite (.bind (hcopy f.stack) fun _ => .refl _) (.bind (hswap f.stack) fun _ => .refl _)

/-- The basic actions come to the same at every address. -/
theorem agreeInAll_congruence : Action.Congruence fun _ x y => AgreeInAll x y where
  pure _ := .refl _
  bind := .bind
  malformed _ _ _ _ := .error rfl
  pop := Action.pop_agrees
  popMany := Action.popMany_agrees
  push _ := .refl _
  parentCall _ := .refl _
  duplicate := performDuplicate_agrees

/-- What an instruction does comes to the same at every address. -/
theorem perform_agrees : AgreeInAll (i.perform d) ((i.atAddress address).perform d) :=
  i.perform_congr agreeInAll_congruence d address (fun _ _ => .refl _) (fun _ _ => .refl _)
    fun _ => .refl _

end Instruction

/-- An instruction is replayed in the same way at every address. -/
theorem Machine.step_agrees (d : Dialect) (m : Machine) (i : Instruction) (address : UInt32) :
    Agree (m.step d i) (m.step d (i.atAddress address)) :=
  .bind (i.perform_agrees d address m.fragment) fun _ => .refl _

namespace Building

variable {α : Type}

/-- Straight code does the same with all its instructions moved to one address. -/
theorem replayAll_agrees (d : Dialect) (code : List Instruction) :
    AgreeInAll (replayAll (Machine.step d) code)
      (replayAll (Machine.step d) (code.map (·.atAddress 0))) := by
  have hall (m : Machine) :
      Agree (code.foldlM (Machine.step d) m)
        ((code.map (·.atAddress 0)).foldlM (Machine.step d) m) := by
    induction code generalizing m with
    | nil => exact .refl _
    | cons i code ih => exact .bind (m.step_agrees d i 0) fun next => ih next
  exact fun draft => (hall _).bind fun _ => .refl _

/-- A region comes to the same if the code in it does. -/
theorem region_agrees {first second : Building Unit} (hbody : AgreeInAll first second) :
    AgreeInAll (region first) (region second) :=
  fun _ => (hbody _).bind fun _ => .refl _

/-- A nested routine comes to the same if its body does. -/
theorem nested_agrees {first second : Building Unit} (hbody : AgreeInAll first second)
    (header : RoutineHeader) : AgreeInAll (nested header first) (nested header second) :=
  fun _ => (hbody _).bind fun _ => .refl _

/-- The body of a loop comes to the same if the code in it does. -/
theorem inLoop_agrees {first second : Building α} (hbody : AgreeInAll first second) :
    AgreeInAll (inLoop first) (inLoop second) := by
  refine .bind (.refl _) fun outer => ?_
  refine .bind (.refl _) fun _ => ?_
  refine .bind hbody fun _ => ?_
  exact .refl _

/-- Code that a cleanup is pending around comes to the same if the code does. -/
theorem guardedBy_agrees {first second : Building α} (hbody : AgreeInAll first second)
    (cleanup : Option (List Stmt)) :
    AgreeInAll (guardedBy cleanup first) (guardedBy cleanup second) := by
  cases cleanup with
  | none => exact hbody
  | some statements =>
    refine .bind (.refl _) fun _ => ?_
    refine .bind hbody fun _ => ?_
    exact .refl _

end Building

mutual

/-- A node is built in the same way wherever its instructions stand. -/
theorem Node.build_agrees (d : Dialect) (n : Node) :
    AgreeInAll (n.build (Machine.step d)) (n.withoutAddresses.build (Machine.step d)) := by
  match n with
  | .block code => exact Building.replayAll_agrees d code.code
  | .branch thenPart elsePart =>
    refine .bind (.refl _) fun _ => ?_
    refine .bind (Building.region_agrees (buildNodes_agrees d thenPart)) fun _ => ?_
    exact .bind (buildOptional_agrees d elsePart) fun _ => .refl _
  | .chain logic conditions =>
    exact .bind (buildConditions_agrees d conditions) fun _ => .refl _
  | .loop condition body =>
    refine .bind (Building.region_agrees (buildNodes_agrees d condition)) fun before => ?_
    refine .bind (.refl _) fun test => ?_
    refine .bind (.refl _) fun _ => ?_
    have hbody := Building.region_agrees (buildNodes_agrees d body)
    exact .bind (Building.inLoop_agrees hbody) fun _ => .refl _
  | .leave | .again => exact .refl _
  | .guarded body cleanup =>
    refine .bind (buildOptional_agrees d cleanup) fun after => ?_
    have hbody := Building.region_agrees (buildNodes_agrees d body)
    exact .bind (Building.guardedBy_agrees hbody after) fun _ => .refl _
  | .statics body =>
    exact .bind (Building.region_agrees (buildNodes_agrees d body)) fun _ => .refl _
  | .routine header body => exact Building.nested_agrees (buildNodes_agrees d body) header

/-- The nodes of a region are built in the same way without their addresses. -/
theorem buildNodes_agrees (d : Dialect) (nodes : List Node) :
    AgreeInAll (buildNodes (Machine.step d) nodes)
      (buildNodes (Machine.step d) (nodesWithoutAddresses nodes)) := by
  match nodes with
  | [] => exact .refl _
  | n :: nodes => exact .bind (n.build_agrees d) fun _ => buildNodes_agrees d nodes

/-- A region, if there is one, is built in the same way without its addresses. -/
theorem buildOptional_agrees (d : Dialect) (part : Option (List Node)) :
    AgreeInAll (buildOptional (Machine.step d) part)
      (buildOptional (Machine.step d) (optionalWithoutAddresses part)) := by
  match part with
  | none => exact .refl _
  | some nodes => exact .bind (Building.region_agrees (buildNodes_agrees d nodes)) fun _ => .refl _

/-- The conditions of a chain are built in the same way without their addresses. -/
theorem buildConditions_agrees (d : Dialect) (regions : List (List Node)) :
    AgreeInAll (buildConditions (Machine.step d) regions)
      (buildConditions (Machine.step d) (regionsWithoutAddresses regions)) := by
  match regions with
  | [] => exact .refl _
  | nodes :: regions =>
    refine .bind (Building.region_agrees (buildNodes_agrees d nodes)) fun before => ?_
    refine .bind (.refl _) fun condition => ?_
    refine .bind (.refl _) fun _ => ?_
    exact .bind (buildConditions_agrees d regions) fun _ => .refl _

end

/-- An entry is built in the same way wherever its instructions stand. -/
theorem Entry.build_agrees (d : Dialect) (entry : Entry) :
    Agree (entry.build d) (entry.withoutAddresses.build d) :=
  .bind (.bind (buildNodes_agrees d entry.body _) fun _ => .refl _) fun _ => .refl _

/-- Addresses never influence the result: entries that are the same but for the addresses of their
instructions and blocks are built into the same tree in the same fragment, or both fail for the same
reason. So they are decompiled into the same tree and printed as the same text, or both fail for the
same reason. -/
theorem decompile_ignores_addresses {first second : Entry}
    (hsame : first.withoutAddresses = second.withoutAddresses) (c : Config) :
    Agree (first.build c.dialect) (second.build c.dialect) ∧
      Agree (c.decompile first) (c.decompile second) ∧
      Agree (c.decompileToText first) (c.decompileToText second) := by
  have hname : first.name = second.name := congrArg (·.name) hsame
  have hbuild : Agree (first.build c.dialect) (second.build c.dialect) := by
    have hsecond := second.build_agrees c.dialect
    rw [← hsame] at hsecond
    exact (first.build_agrees c.dialect).trans hsecond.symm
  have hdecompile : Agree (c.decompile first) (c.decompile second) := by
    unfold Config.decompile
    rw [hname]
    exact (hbuild.bind fun _ => .refl _).mapError second.name
  refine ⟨hbuild, hdecompile, ?_⟩
  unfold Config.decompileToText
  rw [hname]
  exact hdecompile.bind fun _ => .refl _

namespace Sample

/-- A guarded call with an early return, at some addresses: the copy of the cleanup before the
return is the same as the cleanup although it stands elsewhere. -/
def closeEarly (body cleanup copy : UInt32) : Entry where
  name := "gml_Object_reader_Create_0"
  body := [.guarded
    [.block ⟨body, [.atAddress (.call "read" 0) body, .atAddress (.plain .popDelete) (body + 1),
      .atAddress (.pushImmediate 1) copy, .atAddress (.pushImmediate 2) (copy + 1),
      .atAddress ((Instruction.plain .add).withTypes .int16 .int16) (copy + 2),
      .atAddress (.call "close" 1) (copy + 3), .atAddress (.plain .popDelete) (copy + 4),
      .atAddress (.plain .exit) (copy + 5)]⟩]
    (some [.block ⟨cleanup, [.atAddress (.pushImmediate 1) cleanup,
      .atAddress (.pushImmediate 2) (cleanup + 1),
      .atAddress ((Instruction.plain .add).withTypes .int16 .int16) (cleanup + 2),
      .atAddress (.call "close" 1) (cleanup + 3), .atAddress (.plain .popDelete) (cleanup + 4)]⟩])]

end Sample

/-- The guarded call is printed with its cleanup, and comes to the same at quite different
addresses. -/
theorem decompile_ignores_addresses_closeEarly :
    (Config.decompileToText {} (Sample.closeEarly 0 100 20)).toOption =
        some "try \x7b\n    read();\n    exit;\n\x7d finally \x7b\n    close(1 + 2);\n\x7d\n" ∧
      Agree (Config.decompileToText {} (Sample.closeEarly 0 100 20))
        (Config.decompileToText {} (Sample.closeEarly 7 0 500)) := by
  refine ⟨by decide +kernel, ?_⟩
  have hsame : (Sample.closeEarly 0 100 20).withoutAddresses =
      (Sample.closeEarly 7 0 500).withoutAddresses := rfl
  exact (decompile_ignores_addresses hsame {}).2.2

/-- A fault does tell where its instruction stands. -/
example (address : UInt32) :
    Entry.build ⟨true, true⟩
        ⟨"gml_Script_f", 0, [.block ⟨0, [.atAddress (.plain .ret) address]⟩]⟩ =
      .error (.stackUnderflow address) :=
  rfl

end GmlDecompiler

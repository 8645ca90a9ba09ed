import GmlDecompiler.Proofs.Codegen.Source
import Mathlib.Data.List.Induction
import Mathlib.Tactic.SplitIfs

/-!
# Replaying the code of a term

The code of a term leaves the tree of the term on the stack. Besides the stack it changes
nothing but the local variables that the fragment has noted. `Emits` says what a run of pieces
does to a region; the runs of single instructions and of whole nodes are put together by
`Emits.append`.
-/

namespace GmlDecompiler

namespace Fragment

/-- Several expressions put on the stack, the first of them on top. -/
def pushAll (f : Fragment) (es : List Expr) : Fragment :=
  { f with stack := es ++ f.stack }

/-- Local variables noted one after another. -/
def noteLocals (f : Fragment) (names : List String) : Fragment :=
  names.foldl noteLocal f

/-- A name put last in a list that does not have it yet. -/
def putNew (names : List String) (name : String) : List String :=
  if names.contains name then names else names ++ [name]

/-- Noting a local variable changes the two lists of local variables only. -/
theorem noteLocal_eq (f : Fragment) (name : String) :
    f.noteLocal name =
      { f with
        locals := putNew f.locals name
        purge := if name = Reserved.temporary then putNew f.purge name else f.purge } := by
  cases f
  simp only [noteLocal, addLocal, flagForPurge, putNew]
  split_ifs <;> simp_all

/-- Noting local variables changes the two lists of local variables only. -/
theorem noteLocals_eq (f : Fragment) (names : List String) :
    f.noteLocals names =
      { f with
        locals := names.foldl putNew f.locals
        purge := (names.filter (· = Reserved.temporary)).foldl putNew f.purge } := by
  induction names generalizing f with
  | nil => cases f; rfl
  | cons name names ih =>
    rw [noteLocals, List.foldl_cons, ← noteLocals, ih, noteLocal_eq]
    by_cases hname : name = Reserved.temporary <;> simp [hname]

/-- Noting no local variables changes nothing. -/
@[simp] theorem noteLocals_nil (f : Fragment) : f.noteLocals [] = f := rfl

/-- Local variables may be noted in two parts. -/
theorem noteLocals_append (f : Fragment) (first second : List String) :
    f.noteLocals (first ++ second) = (f.noteLocals first).noteLocals second :=
  List.foldl_append

/-- Local variables may be noted before or after an expression is pushed. -/
@[simp] theorem noteLocals_push (f : Fragment) (e : Expr) (names : List String) :
    (f.push e).noteLocals names = (f.noteLocals names).push e := by
  simp only [noteLocals_eq, push]

/-- Local variables may be noted before or after several expressions are pushed. -/
@[simp] theorem noteLocals_pushAll (f : Fragment) (es : List Expr) (names : List String) :
    (f.pushAll es).noteLocals names = (f.noteLocals names).pushAll es := by
  simp only [noteLocals_eq, pushAll]

/-- Noting local variables does not touch the pending routines. -/
@[simp] theorem pending_noteLocals (f : Fragment) (names : List String) :
    (f.noteLocals names).pending = f.pending := by
  rw [noteLocals_eq]

/-- Noting local variables does not touch the loop. -/
@[simp] theorem inLoop_noteLocals (f : Fragment) (names : List String) :
    (f.noteLocals names).inLoop = f.inLoop := by
  rw [noteLocals_eq]

/-- Noting local variables does not touch the innermost cleanup. -/
@[simp] theorem cleanup?_noteLocals (f : Fragment) (names : List String) :
    (f.noteLocals names).cleanup? = f.cleanup? := by
  rw [noteLocals_eq]
  rfl

/-- Names put one after another stand in the order in which they are met first. -/
theorem foldl_putNew (names : List String) : names.foldl putNew [] = names.eraseDups := by
  induction names using List.reverseRecOn with
  | nil => rfl
  | append_singleton names name ih =>
    rw [List.foldl_append, ih, List.eraseDups_append]
    by_cases hname : name ∈ names <;>
      simp [putNew, hname, List.removeAll, List.eraseDups_cons]

/-- Of the local variables noted, a purge forgets the one that the compiler uses for itself. -/
theorem purgeLocals_noteLocals {f : Fragment} (hlocals : f.locals = []) (hpurge : f.purge = [])
    (names : List String) :
    (f.noteLocals names).purgeLocals =
      { f with locals := names.eraseDups.filter (· ≠ Reserved.temporary) } := by
  have hflagged (name : String) (hname : name ∈ names) :
      (names.filter (· = Reserved.temporary)).eraseDups.contains name =
        decide (name = Reserved.temporary) := by
    simp [List.contains_eq_mem, hname]
  rw [noteLocals_eq, hlocals, hpurge, foldl_putNew, foldl_putNew]
  simp only [purgeLocals, Fragment.mk.injEq, true_and, and_true]
  apply List.filter_congr
  intro name hname
  rw [hflagged name (List.mem_eraseDups.mp hname)]
  simp

/-- Local variables noted in the body of a loop are noted outside of it too. -/
theorem noteLocals_inLoop (f : Fragment) (inner : Bool) (names : List String) :
    { ({ f with inLoop := inner } : Fragment).noteLocals names with inLoop := f.inLoop } =
      f.noteLocals names := by
  simp only [noteLocals_eq]

/-- Local variables noted under a cleanup are noted outside of it too. -/
theorem popCleanup_noteLocals (f : Fragment) (cleanup : List Stmt) (names : List String) :
    ((f.pushCleanup cleanup).noteLocals names).popCleanup = f.noteLocals names := by
  simp only [noteLocals_eq, pushCleanup, popCleanup, List.drop_succ_cons, List.drop_zero]

/-- A cleanup that becomes pending does not touch the pending routines. -/
@[simp] theorem pending_pushCleanup (f : Fragment) (cleanup : List Stmt) :
    (f.pushCleanup cleanup).pending = f.pending := rfl

/-- A cleanup that becomes pending does not touch the loop. -/
@[simp] theorem inLoop_pushCleanup (f : Fragment) (cleanup : List Stmt) :
    (f.pushCleanup cleanup).inLoop = f.inLoop := rfl

/-- Pushing an expression does not touch the pending routines. -/
@[simp] theorem pending_push (f : Fragment) (e : Expr) : (f.push e).pending = f.pending := rfl

/-- Pushing several expressions does not touch the pending routines. -/
@[simp] theorem pending_pushAll (f : Fragment) (es : List Expr) :
    (f.pushAll es).pending = f.pending := rfl

/-- Pushing no expressions changes nothing. -/
@[simp] theorem pushAll_nil (f : Fragment) : f.pushAll [] = f := by
  cases f
  rfl

end Fragment

namespace Action

/-- Popping as many expressions as were pushed gives them back. -/
@[simp] theorem popMany_pushAll (address : UInt32) (f : Fragment) (es : List Expr) :
    popMany address es.length (f.pushAll es) = .ok (es, f) := by
  cases f
  simp [popMany, Fragment.pushAll]

/-- The first of several expressions that were pushed is on top. -/
@[simp] theorem pop_pushAll (address : UInt32) (f : Fragment) (e : Expr) (es : List Expr) :
    pop address (f.pushAll (e :: es)) = .ok (e, f.pushAll es) :=
  pop_push address (f.pushAll es) e

/-- A condition that was just pushed is the one that is popped. -/
@[simp] theorem popCondition_push (construct : Construct) (f : Fragment) (e : Expr) :
    popCondition construct (f.push e) = .ok (e, f) := by
  simp [popCondition]

/-- Pushing a shape makes an expression of it, with the slot that its type has. -/
@[simp] theorem push_apply (shape : Shape) (f : Fragment) :
    push shape f = .ok ((), f.push (Expr.ofShape shape)) := rfl

end Action

/-- A piece built. -/
def Piece.build (replay : Replay) : Piece → Building Unit
  | .op i => Building.replayAll replay [i]
  | .node n => n.build replay

/-- Pieces built one after another. -/
def buildPieces (replay : Replay) : List Piece → Building Unit
  | [] => return
  | p :: ps => do
    p.build replay
    buildPieces replay ps

/-- An instruction in front of a region is replayed before it. -/
theorem buildNodes_putFront (replay : Replay) (i : Instruction) (nodes : List Node) :
    buildNodes replay (Piece.putFront i nodes) =
      Building.replayAll replay [i] >>= fun _ => buildNodes replay nodes := by
  funext s
  unfold Piece.putFront
  split
  · simp only [buildNodes, Node.build, Building.replayAll, bind, StateT.bind, Except.bind,
      List.foldlM_cons, List.foldlM_nil]
    cases replay ⟨s.fragment, s.output⟩ i <;> rfl
  · simp only [buildNodes, Node.build, Building.replayAll, bind, StateT.bind, Except.bind]

/-- Building the region that pieces make up is building the pieces. -/
theorem buildNodes_pack (replay : Replay) (ps : List Piece) :
    buildNodes replay (Piece.pack ps) = buildPieces replay ps := by
  induction ps with
  | nil => rfl
  | cons p ps ih =>
    cases p with
    | op i => rw [Piece.pack, buildNodes_putFront, ih]; rfl
    | node n => rw [Piece.pack, buildNodes, ih]; rfl

/-- Pieces may be built in two parts. -/
theorem buildPieces_append (replay : Replay) (ps qs : List Piece) :
    buildPieces replay (ps ++ qs) =
      buildPieces replay ps >>= fun _ => buildPieces replay qs := by
  induction ps with
  | nil => rfl
  | cons p ps ih => simp [buildPieces, ih]

/-- The pieces take the fragment of a region from one state to another and add statements to
its output, whatever the output was before. -/
def Emits (d : Dialect) (ps : List Piece) (f f' : Fragment) (ss : List Stmt) : Prop :=
  ∀ output declared,
    buildPieces (Machine.step d) ps ⟨f, output, declared⟩ =
      .ok ((), ⟨f', output ++ ss, declared⟩)

namespace Emits

variable {d : Dialect} {ps qs : List Piece} {f g h : Fragment} {ss ts : List Stmt}

/-- No pieces do nothing. -/
theorem nil : Emits d [] f f [] := by
  intro output declared
  rw [List.append_nil]
  rfl

/-- Two runs put together. -/
theorem append (hps : Emits d ps f g ss) (hqs : Emits d qs g h ts) :
    Emits d (ps ++ qs) f h (ss ++ ts) := by
  intro output declared
  rw [buildPieces_append]
  simp only [bind, StateT.bind, hps output declared, Except.bind]
  rw [hqs, List.append_assoc]

/-- An instruction that is no return does what it performs. -/
theorem op {i : Instruction} (hperform : i.perform d f = .ok (ss, g))
    (hreturn : i.isReturn = false) : Emits d [.op i] f g ss := by
  intro output declared
  have hstep : Machine.step d ⟨f, output⟩ i = .ok ⟨g, output ++ ss⟩ := by
    simp [Machine.step, hperform, hreturn, bind, Except.bind]
  have hreplay : Building.replayAll (Machine.step d) [i] ⟨f, output, declared⟩ =
      .ok ((), ⟨g, output ++ ss, declared⟩) := by
    simp [Building.replayAll, hstep, bind, Except.bind]
  simp [buildPieces, Piece.build, hreplay, bind, StateT.bind, Except.bind]

/-- A node does what it is built to. -/
theorem node {n : Node} (hbuild : ∀ output declared,
      n.build (Machine.step d) ⟨f, output, declared⟩ = .ok ((), ⟨g, output ++ ss, declared⟩)) :
    Emits d [.node n] f g ss := by
  intro output declared
  simp [buildPieces, Piece.build, hbuild, bind, StateT.bind, Except.bind]

/-- A region of its own gives the statements that its pieces add. -/
theorem region (hps : Emits d ps f g ss) (output : List Stmt) (declared : List (Nat × String)) :
    Building.region (buildNodes (Machine.step d) (Piece.pack ps)) ⟨f, output, declared⟩ =
      .ok (ss, ⟨g, output, declared⟩) := by
  have hinner := hps [] []
  rw [List.nil_append] at hinner
  simp [Building.region, buildNodes_pack, hinner, Draft.close, bind, Except.bind]

end Emits

/-- What the code of a computed owner leaves on the stack, top first. -/
def Place.ownerSlots (owner : Term) (marked : Bool) : List Expr :=
  if marked then [.ofShape (.int16 Instance.stackTop.raw), owner.tree] else [owner.tree]

/-- The one index `row * 32000 + column` of a two-dimensional access. -/
def Place.gridIndex (product sum : Instruction) (row column : Expr) : Expr :=
  let stride := Expr.ofShape (.int32 Reserved.rowStride)
  .ofShape (.binary (sum.atAddress 0)
    (.ofShape (.binary (product.atAddress 0) row stride)) column)

/-- What the code of an access leaves on the stack, top first. -/
def Place.operands : Place → List Expr
  | .plain _ _ => []
  | .member _ owner marked => ownerSlots owner marked
  | .element _ _ owner marked index => index.tree :: ownerSlots owner marked
  | .cell _ owner marked row column product sum =>
    gridIndex product sum row.tree column.tree :: ownerSlots owner marked

/-- Slots from the top of the stack that hold an owner: the owner alone, or the owner under a
marker. -/
inductive HoldsOwner : List Expr → Expr → Prop
  | bare {owner : Expr} (howner : owner.isStackTopMarker = false) : HoldsOwner [owner] owner
  | marked {marker owner : Expr} (hmarker : marker.isStackTopMarker = true) :
      HoldsOwner [marker, owner] owner

/-- The type of the slot that a literal takes. -/
def Literal.slot : Literal → SlotType
  | .int16 _ => .int16
  | .int32 _ => .int32
  | .int64 _ => .int64
  | .double _ => .double
  | .boolean _ => .boolean
  | .string _ => .string

namespace Instruction

/-- The instruction pushes a literal. -/
inductive Loads (i : Instruction) : Literal → Prop
  | immediate {value : Int16} (hopcode : i.opcode = .pushImmediate)
      (hliteral : i.literal = some (.int16 value)) : Loads i (.int16 value)
  | typed {value : Literal} (hopcode : i.opcode.isPush = true) (htype : i.type1 = value.slot)
      (hfunction : i.function = none) (hliteral : i.literal = some value) : Loads i value

/-- The instruction pushes a reference to a function. -/
structure Refers (i : Instruction) (name : String) : Prop where
  isPush : i.opcode.isPush = true
  type : i.type1 = .int32
  function : i.function = some name

end Instruction

/-- There is one tree for each term. -/
@[simp] theorem termTrees_length (ts : List Term) : (termTrees ts).length = ts.length := by
  induction ts with
  | nil => rfl
  | cons t ts ih => simp [termTrees, ih]

/-- No term is a routine. -/
theorem Term.tree_shape_ne_routine (t : Term) (r : Routine) : t.tree.shape ≠ .routine r := by
  cases t with
  | literal value => cases value <;> simp [Term.tree, Expr.ofShape, Literal.shape]
  | _ => simp [Term.tree, Expr.ofShape]

/-- No tree of a term is a routine, since routines are not terms. -/
theorem termTrees_shape_ne_routine {ts : List Term} {e : Expr} (he : e ∈ termTrees ts)
    (r : Routine) : e.shape ≠ .routine r := by
  induction ts with
  | nil => cases he
  | cons t ts ih =>
    rcases List.mem_cons.mp he with rfl | he
    · exact t.tree_shape_ne_routine r
    · exact ih he

/-- A count that fits 16 bits is kept by them. -/
theorem toNat_toUInt16 {count : Nat} (hcount : count < UInt16.size) :
    count.toUInt16.toNat = count := by
  simpa using Nat.mod_eq_of_lt hcount

namespace Instruction

variable {d : Dialect} {i : Instruction} {f : Fragment}

/-- A call of `method` binds only a routine. -/
theorem boundRoutine?_eq_none {es : List Expr} (hes : ∀ e ∈ es, ∀ r, e.shape ≠ .routine r)
    (function : String) : boundRoutine? function es = none := by
  match es with
  | [] | [_] | _ :: _ :: _ :: _ => rfl
  | [_, e] =>
    have hroutine := hes e (by simp)
    simp only [boundRoutine?]

/-- An operator or a push is no return. -/
theorem isReturn_eq_false
    (hopcode : i.opcode.isUnary ∨ i.opcode.isBinary ∨ i.opcode.isPush) : i.isReturn = false := by
  cases hop : i.opcode <;> simp_all [isReturn, Opcode.isUnary, Opcode.isBinary, Opcode.isPush]

/-- Only a routine that is instantiated may make a struct literal. -/
theorem instantiate_eq_construct {callee : Expr} (hcallee : ∀ r, callee.shape ≠ .routine r)
    (arguments : List Expr) : instantiate callee arguments = .construct callee arguments := by
  unfold instantiate
  split
  · exact absurd ‹_› (hcallee _)
  · rfl

/-- An operator with one operand takes it from the stack. -/
theorem perform_unary (hopcode : i.opcode.isUnary) (e : Expr) :
    i.perform d (f.push e) = .ok ([], f.push (.ofShape (.unary (i.atAddress 0) e))) := by
  cases hop : i.opcode <;> simp only [hop, Opcode.isUnary, Bool.false_eq_true] at hopcode
  all_goals
    simp [perform, hop, performUnary, bind, StateT.bind, Except.bind]

/-- An operator with two operands takes the right one from the top and the left one from below. -/
theorem perform_binary (hopcode : i.opcode.isBinary) (left right : Expr) :
    i.perform d ((f.push left).push right) =
      .ok ([], f.push (.ofShape (.binary (i.atAddress 0) left right))) := by
  cases hop : i.opcode <;> simp only [hop, Opcode.isBinary, Bool.false_eq_true] at hopcode
  all_goals
    simp [perform, hop, performBinary, bind, StateT.bind, Except.bind]

/-- An instruction that pushes does nothing else. -/
theorem perform_eq_of_isPush (hpush : i.opcode.isPush = true) :
    i.perform d = (i.pushed d >>= fun shape => Action.push shape >>= fun _ => pure []) := by
  unfold perform
  cases hopcode : i.opcode with
  | push | pushLocal | pushGlobal | pushBuiltin => rfl
  | _ =>
    rw [hopcode] at hpush
    cases hpush

/-- What a push finds is put on the stack, and the push gives no statement. -/
theorem perform_push (hopcode : i.opcode.isPush) {shape : Shape} {g : Fragment}
    (hpushed : i.pushed d f = .ok (shape, g)) :
    i.perform d f = .ok ([], g.push (.ofShape shape)) := by
  rw [perform_eq_of_isPush hopcode]
  simp [hpushed, bind, StateT.bind, Except.bind]

/-- The instruction that pushes a literal loads it. -/
theorem loads_push (value : Literal) : value.push.Loads value := by
  cases value with
  | int16 value => exact .immediate rfl rfl
  | _ => exact .typed rfl rfl rfl rfl

/-- Loading a literal puts it on the stack. -/
theorem Loads.perform {value : Literal} (hi : i.Loads value) (f : Fragment) :
    i.perform d f = .ok ([], f.push (.ofShape value.shape)) := by
  cases hi with
  | immediate hopcode hliteral =>
    simp [Instruction.perform, hopcode, int16, hliteral, Literal.toInt16, Literal.shape, bind,
      StateT.bind, Except.bind]
  | typed hopcode htype hfunction hliteral =>
    apply perform_push hopcode
    cases value with
    | boolean value =>
      cases value <;> simp [pushed, htype, Literal.slot, int16, hliteral, Literal.toInt16,
        Literal.shape]
    | _ =>
      simp [pushed, htype, hfunction, Literal.slot, Literal.shape, hliteral, int16, int32, int64,
        double, text, Literal.toInt16, Literal.toInt32, Literal.toInt64, Literal.toDouble,
        Literal.toText]

/-- Pushing the name of a function that is not pending puts the name on the stack. -/
theorem Refers.perform {name : String} (hi : i.Refers name)
    (hfree : f.pending.lookup name = none) :
    i.perform d f = .ok ([], f.push (.ofShape (.function name))) := by
  apply perform_push hi.isPush
  simp [pushed, hi.type, hi.function, takeFunction, Fragment.takePending, hfree]

/-- The code of a literal puts it on the stack. -/
theorem perform_literal (value : Literal) :
    value.push.perform d f = .ok ([], f.push (.ofShape value.shape)) :=
  (loads_push value).perform f

/-- The code of a function puts its name on the stack, as long as no routine is pending. -/
theorem perform_function (hpending : f.pending = []) (name : String) :
    (((plain .push).withTypes .int32 .int32).withFunction name 0).perform d f =
      .ok ([], f.push (.ofShape (.function name))) :=
  Refers.perform ⟨rfl, rfl, rfl⟩ (by rw [hpending]; rfl)

/-- A variable that is accessed is noted if it is a local one. -/
theorem accessed_eq {v : VarRef} (htarget : i.target = some v) :
    i.accessed f = .ok (v, f.noteLocals v.localName) := by
  by_cases howner : v.owner = .locals <;>
    simp [accessed, htarget, howner, VarRef.localName, Fragment.noteLocals, bind, StateT.bind,
      Except.bind]

/-- An index that is not split stands for itself. -/
theorem indices_eq_singleton {index : Expr}
    (hindex : d.unifiedArrays = true ∨ index.rowAndColumn? = none) : d.indices index = [index] := by
  rcases hindex with hunified | hwhole
  · simp [Dialect.indices, hunified]
  · simp [Dialect.indices, hwhole]

/-- The index of a two-dimensional access is split into its row and its column. -/
theorem indices_eq_pair {product sum : Instruction} (hunified : d.unifiedArrays = false)
    (hproduct : product.opcode = .multiply) (hsum : sum.opcode = .add) (row column : Expr) :
    d.indices (Place.gridIndex product sum row column) = [row, column] := by
  simp [Dialect.indices, hunified, Expr.rowAndColumn?, Place.gridIndex, Expr.ofShape, atAddress,
    hproduct, hsum]

/-- An owner is found below its marker, or on top if it is no marker itself. -/
theorem popOwner_of_holdsOwner {slots : List Expr} {owner : Expr} (hslots : HoldsOwner slots owner)
    (f : Fragment) : i.popOwner (f.pushAll slots) = .ok (owner, f) := by
  cases hslots with
  | bare howner => simp [popOwner, howner, bind, StateT.bind, Except.bind]
  | marked hmarker => simp [popOwner, hmarker, bind, StateT.bind, Except.bind]

/-- The slots that a push of a variable takes off the stack, with the owner and the indices that it
finds there. -/
inductive ReadOperands (d : Dialect) (i : Instruction) :
    List Expr → Expr → Option (List Expr) → Prop
  | named (howner : i.owner ≠ .stackTop)
      (hreference : i.reference = .normal ∨ i.reference = .ofInstance) :
      ReadOperands d i [] i.ownOwner none
  | member {slots : List Expr} {owner : Expr}
      (hcomputed : i.owner = .stackTop ∨ i.reference = .stackTop)
      (hslots : HoldsOwner slots owner) :
      ReadOperands d i slots owner none
  | element {index : Expr} {slots : List Expr} {owner : Expr} (howner : i.owner ≠ .stackTop)
      (hreference : i.reference = .array) (hslots : HoldsOwner slots owner) :
      ReadOperands d i (index :: slots) owner (some (d.indices index))
  | nested {index : Expr} {slots : List Expr} {owner : Expr} (howner : i.owner ≠ .stackTop)
      (hreference : i.reference = .multiPush ∨ i.reference = .multiPushPop)
      (hslots : HoldsOwner slots owner) : ReadOperands d i (index :: slots) owner (some [index])

/-- The slots that a store to a variable takes off the stack, with the owner and the indices that it
finds there. -/
inductive WriteOperands (d : Dialect) (i : Instruction) :
    List Expr → Expr → Option (List Expr) → Prop
  | named (hmember : i.reference ≠ .stackTop) (helement : i.reference ≠ .array) :
      WriteOperands d i [] i.ownOwner none
  | member {slots : List Expr} {owner : Expr} (hreference : i.reference = .stackTop)
      (hslots : HoldsOwner slots owner) : WriteOperands d i slots owner none
  | element {index : Expr} {slots : List Expr} {owner : Expr} (hreference : i.reference = .array)
      (hslots : HoldsOwner slots owner) :
      WriteOperands d i (index :: slots) owner (some (d.indices index))

/-- An index that is not split is taken for itself. -/
theorem ReadOperands.whole (howner : i.owner ≠ .stackTop) (hreference : i.reference = .array)
    {slots : List Expr} {owner index : Expr} (hslots : HoldsOwner slots owner)
    (hindex : d.unifiedArrays = true ∨ index.rowAndColumn? = none) :
    i.ReadOperands d (index :: slots) owner (some [index]) := by
  have hread : i.ReadOperands d (index :: slots) owner (some (d.indices index)) :=
    .element howner hreference hslots
  rwa [indices_eq_singleton hindex] at hread

/-- The index of a two-dimensional access is taken for its row and its column. -/
theorem ReadOperands.grid (howner : i.owner ≠ .stackTop) (hreference : i.reference = .array)
    {slots : List Expr} {owner : Expr} {product sum : Instruction} (hslots : HoldsOwner slots owner)
    (hunified : d.unifiedArrays = false) (hproduct : product.opcode = .multiply)
    (hsum : sum.opcode = .add) (row column : Expr) :
    i.ReadOperands d (Place.gridIndex product sum row column :: slots) owner
      (some [row, column]) := by
  rw [← indices_eq_pair hunified hproduct hsum row column]
  exact .element howner hreference hslots

/-- A push finds its variable in the slots that it takes. -/
theorem readAccess_pushAll {v : VarRef} {slots : List Expr} {owner : Expr}
    {indices : Option (List Expr)} (htarget : i.target = some v)
    (hoperands : i.ReadOperands d slots owner indices) (f : Fragment) :
    i.readAccess d (f.pushAll slots) =
      .ok (⟨v, i.reference, owner, indices, i.opcode == .push, none⟩,
        f.noteLocals v.localName) := by
  have hpop {slots : List Expr} {owner : Expr} (hslots : HoldsOwner slots owner) :=
    popOwner_of_holdsOwner (i := i) hslots (f.noteLocals v.localName)
  cases hoperands with
  | named howner hreference =>
    rcases hreference with hreference | hreference <;>
      simp [readAccess, accessed_eq htarget, howner, hreference, bind, StateT.bind, Except.bind]
  | member hcomputed hslots =>
    simp [readAccess, accessed_eq htarget, hcomputed, hpop hslots, bind, StateT.bind, Except.bind]
  | element howner hreference hslots =>
    simp [readAccess, accessed_eq htarget, howner, hreference, hpop hslots, bind, StateT.bind,
      Except.bind]
  | nested howner hreference hslots =>
    rcases hreference with hreference | hreference <;>
      simp [readAccess, accessed_eq htarget, howner, hreference, hpop hslots, bind, StateT.bind,
        Except.bind]

/-- A store finds its variable in the slots that it takes. -/
theorem writeAccess_pushAll {slots : List Expr} {owner : Expr} {indices : Option (List Expr)}
    (hoperands : i.WriteOperands d slots owner indices) (v : VarRef) (f : Fragment) :
    i.writeAccess d v (f.pushAll slots) =
      .ok (⟨v, i.reference, owner, indices, false, none⟩, f) := by
  have hpop {slots : List Expr} {owner : Expr} (hslots : HoldsOwner slots owner) :=
    popOwner_of_holdsOwner (i := i) hslots f
  cases hoperands with
  | named hmember helement => simp [writeAccess, hmember, helement]
  | member hreference hslots =>
    simp [writeAccess, hreference, hpop hslots, bind, StateT.bind, Except.bind]
  | element hreference hslots =>
    simp [writeAccess, hreference, hpop hslots, bind, StateT.bind, Except.bind]

/-- What a push of a variable pushes is an access. -/
theorem pushed_access {access : Access} {g : Fragment} (htype : i.type1 = .variable)
    (haccess : i.readAccess d f = .ok (access, g)) : i.pushed d f = .ok (.access access, g) := by
  simp only [pushed, htype, haccess, bind, StateT.bind, Except.bind, pure_apply]

/-- The slots of a computed owner hold it. -/
theorem holdsOwner_ownerSlots {owner : Term} {marked : Bool}
    (hclear : Place.OwnerClear owner marked) :
    HoldsOwner (Place.ownerSlots owner marked) owner.tree := by
  cases marked with
  | true => exact .marked rfl
  | false =>
    have howner : owner.tree.isStackTopMarker = false := by
      simpa [Place.OwnerClear] using hclear
    exact .bare howner

/-- A push of a variable takes its operands off the stack. -/
theorem readAccess_place {place : Place} (opcode : Opcode) (hreadable : place.Readable)
    (hplace : place.WellFormed d) :
    (place.readBy opcode).readAccess d (f.pushAll place.operands) =
      .ok (place.access (opcode == .push), f.noteLocals place.target.localName) := by
  cases place with
  | plain target owner =>
    have howner : owner ≠ .stackTop := hreadable
    exact readAccess_pushAll rfl (.named howner (.inl rfl)) f
  | member target owner marked =>
    exact readAccess_pushAll rfl (.member (.inr rfl) (holdsOwner_ownerSlots hplace.1)) f
  | element reference target owner marked index =>
    obtain ⟨hclear, -, -, hwhole⟩ := hplace
    have hslots := holdsOwner_ownerSlots hclear
    obtain ⟨howner, rfl | hmulti⟩ := hreadable
    · exact readAccess_pushAll rfl (.whole howner rfl hslots (hwhole rfl)) f
    · exact readAccess_pushAll rfl (.nested howner hmulti hslots) f
  | cell target owner marked row column product sum =>
    obtain ⟨hunified, hproduct, hsum, hclear, -⟩ := hplace
    have howner : target.owner ≠ .stackTop := hreadable
    have hslots := holdsOwner_ownerSlots hclear
    exact readAccess_pushAll rfl (.grid howner rfl hslots hunified hproduct hsum _ _) f

/-- A store to a variable takes its operands off the stack. -/
theorem writeAccess_place {place : Place} (type1 type2 : SlotType) (hwritable : place.Writable)
    (hplace : place.WellFormed d) :
    (place.storeAs type1 type2).writeAccess d place.target (f.pushAll place.operands) =
      .ok (place.access false, f) := by
  cases place with
  | plain target owner =>
    have hnamed : ((Place.plain target owner).storeAs type1 type2).WriteOperands d []
        (.ofShape (.keyword owner)) none := .named nofun nofun
    exact writeAccess_pushAll hnamed target f
  | member target owner marked =>
    exact writeAccess_pushAll (.member rfl (holdsOwner_ownerSlots hplace.1)) target f
  | element reference target owner marked index =>
    obtain rfl : reference = .array := hwritable
    obtain ⟨hclear, -, -, hwhole⟩ := hplace
    rw [Place.access, ← indices_eq_singleton (hwhole rfl)]
    exact writeAccess_pushAll (.element rfl (holdsOwner_ownerSlots hclear)) target f
  | cell target owner marked row column product sum =>
    obtain ⟨hunified, hproduct, hsum, hclear, -⟩ := hplace
    rw [Place.access, ← indices_eq_pair hunified hproduct hsum]
    exact writeAccess_pushAll (.element rfl (holdsOwner_ownerSlots hclear)) target f

/-- A call takes its arguments off the stack, unless it binds a routine. -/
theorem perform_call_of {function : String} {es : List Expr} (hopcode : i.opcode = .call)
    (hfunction : i.function = some function) (hnew : function ≠ Reserved.newObject)
    (hcopy : function ≠ Reserved.copyStatic) (hcount : i.argCount.toNat = es.length)
    (hbound : boundRoutine? function es = none) (f : Fragment) :
    i.perform d (f.pushAll es) = .ok ([], f.push (.ofShape (.call function es))) := by
  have hpop := Action.popMany_pushAll i.address f es
  rw [← hcount] at hpop
  simp only [perform, hopcode, performCall, hfunction, hnew, hcopy, if_false, hpop, hbound,
    Action.push_apply, bind, StateT.bind, Except.bind, pure_apply]

/-- A call of a function value takes the callee, its instance and the arguments off. -/
theorem perform_callValue_of {es : List Expr} (hopcode : i.opcode = .callValue)
    (hcount : i.argCount.toNat = es.length) (callee self : Expr) (f : Fragment) :
    i.perform d (((f.pushAll es).push self).push callee) =
      .ok ([], f.push (.ofShape (.callValue callee self es))) := by
  have hpop := Action.popMany_pushAll i.address f es
  rw [← hcount] at hpop
  simp only [perform, hopcode, performCallValue, Action.pop_push, hpop, Action.push_apply, bind,
    StateT.bind, Except.bind, pure_apply]

/-- A construction takes the constructor and the arguments off, unless it makes a struct literal. -/
theorem perform_construct_of {callee : Expr} {es : List Expr} (hopcode : i.opcode = .call)
    (hfunction : i.function = some Reserved.newObject) (hcount : i.argCount.toNat - 1 = es.length)
    (hplain : instantiate callee es = .construct callee es) (f : Fragment) :
    i.perform d ((f.pushAll es).push callee) =
      .ok ([], f.push (.ofShape (.construct callee es))) := by
  have hpop := Action.popMany_pushAll i.address f es
  rw [← hcount] at hpop
  simp only [perform, hopcode, performCall, hfunction, if_true, Action.pop_push, hpop, hplain,
    Action.push_apply, bind, StateT.bind, Except.bind, pure_apply]

/-- A call takes the arguments that its code puts on the stack. -/
theorem perform_call {function : String} {ts : List Term} (hnew : function ≠ Reserved.newObject)
    (hcopy : function ≠ Reserved.copyStatic) (hcount : ts.length < UInt16.size) :
    (call function ts.length.toUInt16).perform d (f.pushAll (termTrees ts)) =
      .ok ([], f.push (.ofShape (.call function (termTrees ts)))) := by
  have hlength : (call function ts.length.toUInt16).argCount.toNat = (termTrees ts).length :=
    (toNat_toUInt16 hcount).trans (termTrees_length ts).symm
  have hroutine (e : Expr) (he : e ∈ termTrees ts) := termTrees_shape_ne_routine he
  exact perform_call_of rfl rfl hnew hcopy hlength (boundRoutine?_eq_none hroutine function) f

/-- Calling a value takes the value and the instance that it is called on, and then the
arguments. -/
theorem perform_callValue {callee self : Expr} {ts : List Term}
    (hcount : ts.length < UInt16.size) :
    ({ plain .callValue with argCount := ts.length.toUInt16 }).perform d
        (((f.pushAll (termTrees ts)).push self).push callee) =
      .ok ([], f.push (.ofShape (.callValue callee self (termTrees ts)))) := by
  have hlength : ({ plain .callValue with argCount := ts.length.toUInt16 }).argCount.toNat =
      (termTrees ts).length := (toNat_toUInt16 hcount).trans (termTrees_length ts).symm
  exact perform_callValue_of rfl hlength callee self f

/-- Calling a constructor takes the constructor and then the arguments. The count includes the
constructor. -/
theorem perform_construct {callee : Term} {ts : List Term}
    (hcount : ts.length + 1 < UInt16.size) :
    (call Reserved.newObject (ts.length + 1).toUInt16).perform d
        ((f.pushAll (termTrees ts)).push callee.tree) =
      .ok ([], f.push (.ofShape (.construct callee.tree (termTrees ts)))) := by
  have hlength : (call Reserved.newObject (ts.length + 1).toUInt16).argCount.toNat - 1 =
      (termTrees ts).length := by
    have hargs : (call Reserved.newObject (ts.length + 1).toUInt16).argCount.toNat =
        ts.length + 1 := toNat_toUInt16 hcount
    rw [hargs, termTrees_length]
    omega
  have hplain := instantiate_eq_construct callee.tree_shape_ne_routine (termTrees ts)
  exact perform_construct_of rfl rfl hlength hplain f

end Instruction

/-- The code of two operands and their operator leaves the operation. -/
theorem Emits.binary {d : Dialect} {ps qs : List Piece} {f g h : Fragment} {left right : Expr}
    {i : Instruction} (hps : Emits d ps f (g.push left) []) (hopcode : i.opcode.isBinary)
    (hqs : Emits d qs (g.push left) ((h.push left).push right) []) :
    Emits d (ps ++ qs ++ [.op i]) f (h.push (.ofShape (.binary (i.atAddress 0) left right))) [] :=
  (hps.append hqs).append (.op (Instruction.perform_binary hopcode left right)
    (Instruction.isReturn_eq_false (.inr (.inl hopcode))))

/-- The code of a row and a column leaves the index that stands for both. -/
theorem Emits.gridIndex {d : Dialect} {ps qs : List Piece} {f g h : Fragment}
    {row column : Expr} {product sum : Instruction} (hps : Emits d ps f (g.push row) [])
    (hproduct : product.opcode = .multiply) (hsum : sum.opcode = .add)
    (hqs : ∀ e, Emits d qs (g.push e) ((h.push e).push column) []) :
    Emits d (ps ++ [.op (.pushInt32 Reserved.rowStride)] ++ [.op product] ++ qs ++ [.op sum]) f
      (h.push (Place.gridIndex product sum row column)) [] := by
  have hstride : Emits d [.op (.pushInt32 Reserved.rowStride)] (g.push row)
      ((g.push row).push (.ofShape (.int32 Reserved.rowStride))) [] :=
    .op (Instruction.perform_literal (.int32 Reserved.rowStride)) rfl
  have hscaled := hps.binary (i := product) (by simp [hproduct, Opcode.isBinary]) hstride
  exact hscaled.binary (by simp [hsum, Opcode.isBinary]) (hqs _)

/-- The code of a computed owner leaves the owner, and its marker if it has one. -/
theorem Place.emits_owner {d : Dialect} {owner : Term} {f : Fragment} (marked : Bool)
    (howner : Emits d owner.code f ((f.noteLocals owner.localNames).push owner.tree) []) :
    Emits d (owner.code ++ Place.marker marked) f
      ((f.noteLocals owner.localNames).pushAll (Place.ownerSlots owner marked)) [] := by
  cases marked with
  | true => exact howner.append (.op (Instruction.perform_literal (.int16 _)) rfl)
  | false =>
    rw [Place.marker, if_neg Bool.false_ne_true, List.append_nil]
    exact howner

mutual

/-- The code of a term puts its tree on the stack and adds no statement. -/
theorem Term.emits_code {d : Dialect} (t : Term) (f : Fragment) (ht : t.WellFormed d)
    (hpending : f.pending = []) :
    Emits d t.code f ((f.noteLocals t.localNames).push t.tree) [] := by
  match t with
  | .literal value => exact .op (Instruction.perform_literal value) (by cases value <;> rfl)
  | .function name => exact .op (Instruction.perform_function hpending name) rfl
  | .read opcode place =>
    obtain ⟨hopcode, hreadable, hplace⟩ := ht
    rw [Term.localNames, Fragment.noteLocals_append]
    refine (place.emits_code f hplace hpending).append (.op ?_ ?_)
    · apply Instruction.perform_push hopcode
      exact Instruction.pushed_access rfl (Instruction.readAccess_place opcode hreadable hplace)
    · exact Instruction.isReturn_eq_false (.inr (.inr hopcode))
  | .unary operator operand =>
    obtain ⟨hopcode, hoperand⟩ := ht
    refine (operand.emits_code f hoperand hpending).append (.op ?_ ?_)
    · exact Instruction.perform_unary hopcode _
    · exact Instruction.isReturn_eq_false (.inl hopcode)
  | .binary operator left right =>
    obtain ⟨hopcode, hleft, hright⟩ := ht
    have hright := right.emits_code ((f.noteLocals left.localNames).push left.tree) hright
      (by simpa using hpending)
    rw [Fragment.noteLocals_push, ← Fragment.noteLocals_append] at hright
    exact (left.emits_code f hleft hpending).binary hopcode hright
  | .call function arguments =>
    obtain ⟨hnew, hcopy, hcount, harguments⟩ := ht
    refine (emits_argumentCode arguments f harguments hpending).append (.op ?_ rfl)
    exact Instruction.perform_call hnew hcopy hcount
  | .callValue callee self arguments =>
    obtain ⟨hcount, hcallee, hself, harguments⟩ := ht
    have hfirst := emits_argumentCode arguments f harguments hpending
    have hsecond := self.emits_code
      ((f.noteLocals (argumentNames arguments)).pushAll (termTrees arguments)) hself
      (by simpa using hpending)
    have hthird := callee.emits_code
      (((f.noteLocals (argumentNames arguments ++ self.localNames)).pushAll
        (termTrees arguments)).push self.tree) hcallee (by simpa using hpending)
    rw [Fragment.noteLocals_pushAll, ← Fragment.noteLocals_append] at hsecond
    rw [Fragment.noteLocals_push, Fragment.noteLocals_pushAll, ← Fragment.noteLocals_append]
      at hthird
    refine ((hfirst.append hsecond).append hthird).append (.op ?_ rfl)
    exact Instruction.perform_callValue hcount
  | .construct callee arguments =>
    obtain ⟨hcount, hcallee, harguments⟩ := ht
    have hfirst := emits_argumentCode arguments f harguments hpending
    have hsecond := callee.emits_code
      ((f.noteLocals (argumentNames arguments)).pushAll (termTrees arguments)) hcallee
      (by simpa using hpending)
    rw [Fragment.noteLocals_pushAll, ← Fragment.noteLocals_append] at hsecond
    refine (hfirst.append hsecond).append (.op ?_ rfl)
    exact Instruction.perform_construct hcount
  | .chain logic conditions =>
    apply Emits.node
    intro output declared
    have hconditions := buildConditions_conditionCode conditions f ht hpending output declared
    simp only [Node.build, hconditions, Building.onFragment, Action.push_apply, bind, StateT.bind,
      Except.bind, pure_eq_ok, List.append_nil]
    rfl

/-- The code of an access puts its operands on the stack. -/
theorem Place.emits_code {d : Dialect} (p : Place) (f : Fragment) (hp : p.WellFormed d)
    (hpending : f.pending = []) :
    Emits d p.code f ((f.noteLocals p.localNames).pushAll p.operands) [] := by
  match p with
  | .plain target owner =>
    rw [Place.operands, Fragment.pushAll_nil]
    exact .nil
  | .member target owner marked =>
    exact Place.emits_owner marked (owner.emits_code f hp.2 hpending)
  | .element reference target owner marked index =>
    obtain ⟨-, howner, hindex, -⟩ := hp
    have hfirst := Place.emits_owner marked (owner.emits_code f howner hpending)
    have hsecond := index.emits_code
      ((f.noteLocals owner.localNames).pushAll (Place.ownerSlots owner marked)) hindex
      (by simpa using hpending)
    rw [Fragment.noteLocals_pushAll, ← Fragment.noteLocals_append] at hsecond
    exact hfirst.append hsecond
  | .cell target owner marked row column product sum =>
    obtain ⟨-, hproduct, hsum, -, howner, hrow, hcolumn⟩ := hp
    let below := (f.noteLocals owner.localNames).pushAll (Place.ownerSlots owner marked)
    have hempty : below.pending = [] := by simpa [below] using hpending
    have hindex := (row.emits_code below hrow hempty).gridIndex hproduct hsum fun e => by
      have hsecond := column.emits_code ((below.noteLocals row.localNames).push e) hcolumn
        (by simpa using hempty)
      rwa [Fragment.noteLocals_push, ← Fragment.noteLocals_append] at hsecond
    rw [Fragment.noteLocals_pushAll, ← Fragment.noteLocals_append] at hindex
    exact (Place.emits_owner marked (owner.emits_code f howner hpending)).append hindex

/-- The code of arguments puts them on the stack, the first on top. -/
theorem emits_argumentCode {d : Dialect} (ts : List Term) (f : Fragment)
    (hts : WellFormedTerms d ts) (hpending : f.pending = []) :
    Emits d (argumentCode ts) f ((f.noteLocals (argumentNames ts)).pushAll (termTrees ts)) [] := by
  match ts with
  | [] =>
    rw [termTrees, Fragment.pushAll_nil]
    exact .nil
  | t :: ts =>
    have hfirst := emits_argumentCode ts f hts.2 hpending
    have hsecond := t.emits_code ((f.noteLocals (argumentNames ts)).pushAll (termTrees ts)) hts.1
      (by simpa using hpending)
    rw [Fragment.noteLocals_pushAll, ← Fragment.noteLocals_append] at hsecond
    exact hfirst.append hsecond

/-- The regions of conditions give the conditions and add no statement. -/
theorem buildConditions_conditionCode {d : Dialect} (ts : List Term) (f : Fragment)
    (hts : WellFormedTerms d ts) (hpending : f.pending = []) (output : List Stmt)
    (declared : List (Nat × String)) :
    buildConditions (Machine.step d) (conditionCode ts) ⟨f, output, declared⟩ =
      .ok (termTrees ts, ⟨f.noteLocals (conditionNames ts), output, declared⟩) := by
  match ts with
  | [] => rfl
  | t :: ts =>
    have hregion := (t.emits_code f hts.1 hpending).region output declared
    have hrest := buildConditions_conditionCode ts (f.noteLocals t.localNames) hts.2
      (by simpa using hpending) output declared
    simp only [conditionCode, buildConditions, hregion, Building.emit, Building.onFragment, bind,
      StateT.bind, Except.bind, modify_apply, pure_eq_ok, List.append_nil, Action.popCondition_push,
      hrest]
    rw [conditionNames, Fragment.noteLocals_append]
    rfl

end

end GmlDecompiler

import GmlDecompiler.Proofs.Building.Declarations
import GmlDecompiler.Proofs.Codegen.RoundTrip
import GmlDecompiler.Proofs.FunctionNames.Scan
import GmlDecompiler.Proofs.Naming.Tidying
import GmlDecompiler.Layout.Source

/-!
# What a binding binds

The code after a fragment is looked at twice: the scan recognises in it the name that a function
gets, and the machine replays it. Both agree. Where the scan recognises a binding, the machine
assigns the function, which is pending, to the variable of that name; tidied, the assignment is the
declaration of the function, and its calls are shown under the name that it is declared with.
-/

namespace GmlDecompiler

/-- The instruction does what it does in the code that the compiler makes for a binding: the calls
have two arguments and none, one variable slot is copied, and the store takes the instance below
which the value lies. -/
def Instruction.isUsual (i : Instruction) : Bool :=
  match i.opcode with
  | .call =>
    (i.function != some Reserved.method || i.argCount == 2)
      && (i.function != some Reserved.nullObject || i.argCount == 0)
  | .duplicate => i.type1 == .variable && i.dupSize == 0
  | .pushImmediate => i.int16 != Instance.stackTop.raw
  | .pop => i.reference == .stackTop && i.type1 != .int32
  | _ => true

namespace Instruction

/-- What the scan asks of a call to a function. -/
theorem isCallTo_iff {i : Instruction} {function : String} :
    i.isCallTo function = true ↔ i.opcode = .call ∧ i.function = some function := by
  simp only [isCallTo, Bool.and_eq_true, beq_iff_eq]

/-- What the scan asks of a duplication that is no swap. -/
theorem isPlainDup_iff {i : Instruction} :
    i.isPlainDup = true ↔ i.opcode = .duplicate ∧ i.swapSize = 0 := by
  simp only [isPlainDup, Bool.and_eq_true, beq_iff_eq]

/-- What the scan asks of a conversion from a word to a variable. -/
theorem isIntToVariable_iff {i : Instruction} :
    i.isIntToVariable = true ↔ (i.opcode = .convert ∧ i.type1 = .int32) ∧ i.type2 = .variable := by
  simp only [isIntToVariable, Bool.and_eq_true, beq_iff_eq]

/-- What the scan asks of a push of a function. -/
theorem pushedFunction?_eq_some {i : Instruction} {function : String} :
    i.pushedFunction? = some function ↔
      (i.opcode = .push ∧ i.type1 = .int32) ∧ i.function = some function := by
  unfold pushedFunction?
  split <;> simp_all

end Instruction

namespace Binding

/-- The instructions that are recognised at the start of the code after a fragment: eight if the
function is bound to an instance, seven if it is a constructor. -/
def tail (code : List Instruction) : List Instruction :=
  code.take (if code[2]?.any (·.opcode == .pushImmediate) then 8 else 7)

/-- The code that puts the owner of a function on the stack, for a function that is stored to
a place: an instance, or none for a constructor, which is not stored for the static or the
global instance. -/
inductive OwnerCode (place : Instruction) : List Instruction → Prop
  | ofInstance {owner conversion : Instruction} :
    owner.opcode = .pushImmediate → owner.int16 = -1 ∨ owner.int16 = -16 →
    conversion.isIntToVariable = true → OwnerCode place [owner, conversion]
  | ofNone {nullObject : Instruction} :
    nullObject.isCallTo Reserved.nullObject = true → place.int16 ≠ -16 → place.int16 ≠ -5 →
    OwnerCode place [nullObject]

/-- The code binds a function and stores it to a variable. -/
inductive Binds (function : String) (v : VarRef) : List Instruction → Prop
  | intro {push conversion method dup place pop : Instruction} {owner : List Instruction} :
    push.pushedFunction? = some function → conversion.isIntToVariable = true →
    OwnerCode place owner → method.isCallTo Reserved.method = true → dup.isPlainDup = true →
    place.opcode = .pushImmediate → pop.opcode = .pop → pop.target = some v →
    Binds function v ([push, conversion] ++ owner ++ [method, dup, place, pop])

variable {code : List Instruction} {function name : String} {v : VarRef}

/-- The store that ends a binding is a copy, an instance and a store to a variable. -/
theorem storedName?_eq_some {ownerOk : Int16 → Bool}
    (hcode : storedName? ownerOk code = some name) :
    ∃ dup place pop rest v, code = dup :: place :: pop :: rest ∧ dup.isPlainDup = true ∧
      place.opcode = .pushImmediate ∧ ownerOk place.int16 = true ∧ pop.opcode = .pop ∧
      pop.target = some v ∧ v.name = name := by
  unfold storedName? at hcode
  split at hcode
  · rename_i dup place pop rest
    split at hcode
    · rename_i hstore
      simp only [Bool.and_eq_true, beq_iff_eq] at hstore
      obtain ⟨⟨⟨hdup, hplace⟩, howner⟩, hpop⟩ := hstore
      obtain ⟨v, htarget, hname⟩ := Option.map_eq_some_iff.mp hcode
      exact ⟨dup, place, pop, rest, v, rfl, hdup, hplace, howner, hpop, htarget, hname⟩
    · cases hcode
  · cases hcode

/-- A function is bound to the instance itself or to the static one. -/
theorem methodName?_eq_some {owner : Instruction}
    (hcode : methodName? (owner :: code) = some name) :
    ∃ conversion method rest, code = conversion :: method :: rest ∧
      (owner.int16 = -1 ∨ owner.int16 = -16) ∧ conversion.isIntToVariable = true ∧
      method.isCallTo Reserved.method = true ∧ storedName? (fun _ => true) rest = some name := by
  unfold methodName? at hcode
  split at hcode
  · rename_i owner conversion method rest heq
    cases heq
    split at hcode
    · rename_i hbound
      simp only [Bool.and_eq_true, Bool.or_eq_true, beq_iff_eq] at hbound
      exact ⟨conversion, method, rest, rfl, hbound.1.1, hbound.1.2, hbound.2, hcode⟩
    · cases hcode
  · cases hcode

/-- A constructor is bound to no instance. -/
theorem constructorName?_eq_some {nullObject : Instruction}
    (hcode : constructorName? (nullObject :: code) = some name) :
    ∃ method rest, code = method :: rest ∧ nullObject.isCallTo Reserved.nullObject = true ∧
      method.isCallTo Reserved.method = true ∧
      storedName? (fun raw => raw != -16 && raw != -5) rest = some name := by
  unfold constructorName? at hcode
  split at hcode
  · rename_i nullObject method rest heq
    cases heq
    split at hcode
    · rename_i hbound
      simp only [Bool.and_eq_true] at hbound
      exact ⟨method, rest, rfl, hbound.1, hbound.2, hcode⟩
    · cases hcode
  · cases hcode

/-- What is recognised is the code of a binding. -/
theorem binds_of_ofCode? (hcode : ofCode? code = some (function, name)) :
    ∃ v : VarRef, v.name = name ∧ Binds function v (tail code) := by
  unfold ofCode? at hcode
  split at hcode
  · rename_i push conversion third rest
    split at hcode
    · rename_i hconversion
      obtain ⟨pushed, hpushed, hcode⟩ := Option.bind_eq_some_iff.mp hcode
      obtain ⟨stored, hname, hpair⟩ := Option.map_eq_some_iff.mp hcode
      obtain ⟨rfl, rfl⟩ := Prod.mk.inj hpair
      split at hname
      · rename_i hthird
        obtain ⟨ownerConversion, method, rest, rfl, howner, hownerConversion, hmethod, hstored⟩ :=
          methodName?_eq_some hname
        obtain ⟨dup, place, pop, after, v, rfl, hdup, hplace, -, hpop, htarget, rfl⟩ :=
          storedName?_eq_some hstored
        have hbinds := Binds.intro hpushed hconversion (.ofInstance hthird howner hownerConversion)
          hmethod hdup hplace hpop htarget
        refine ⟨v, rfl, ?_⟩
        simpa [tail, hthird] using hbinds
      · rename_i hthird
        obtain ⟨method, rest, rfl, hnull, hmethod, hstored⟩ := constructorName?_eq_some hname
        obtain ⟨dup, place, pop, after, v, rfl, hdup, hplace, hraw, hpop, htarget, rfl⟩ :=
          storedName?_eq_some hstored
        simp only [Bool.and_eq_true, bne_iff_ne] at hraw
        have hbinds := Binds.intro hpushed hconversion (.ofNone hnull hraw.1 hraw.2) hmethod hdup
          hplace hpop htarget
        refine ⟨v, rfl, ?_⟩
        simpa [tail, hthird] using hbinds
      · cases hname
    · cases hcode
  · cases hcode

/-- The code of a binding is recognised, whatever follows it. -/
theorem Binds.ofCode?_append {tail : List Instruction} (hbinds : Binds function v tail)
    (rest : List Instruction) : ofCode? (tail ++ rest) = some (function, v.name) := by
  obtain ⟨hpush, hconversion, howner, hmethod, hdup, hplace, hpop, htarget⟩ := hbinds
  cases howner with
  | ofInstance hopcode hraw hownerConversion =>
    rcases hraw with hraw | hraw <;>
      simp [ofCode?, methodName?, storedName?, hpush, hconversion, hopcode, hraw, hownerConversion,
        hmethod, hdup, hplace, hpop, htarget]
  | ofNone hnull hstatic hglobal =>
    rename_i nullObject
    have hopcode : nullObject.opcode = .call := (Instruction.isCallTo_iff.mp hnull).1
    simp [ofCode?, constructorName?, storedName?, hpush, hconversion, hopcode, hnull, hstatic,
      hglobal, hmethod, hdup, hplace, hpop, htarget]

end Binding

namespace Instruction

variable {d : Dialect} {i : Instruction} {f : Fragment} {e : Expr}

/-- A push of a function that is pending takes it for use. -/
theorem perform_pushedFunction {function : String} {r : Routine}
    (hpush : i.pushedFunction? = some function) (hpending : f.pending.lookup function = some r) :
    i.perform d f =
      .ok ([], { f with pending := f.pending.filter (·.1 != function) }.push
        (.ofShape (.routine r))) := by
  obtain ⟨⟨hopcode, htype⟩, hfunction⟩ := pushedFunction?_eq_some.mp hpush
  have hpushes : i.opcode.isPush = true := by simp [hopcode, Opcode.isPush]
  apply perform_push hpushes
  simp [pushed, htype, hfunction, takeFunction, Fragment.takePending, hpending]

/-- A conversion converts the expression on top. -/
theorem perform_convert (hopcode : i.opcode = .convert) :
    i.perform d (f.push e) = .ok ([], f.push (e.convert i.type1 i.type2)) := by
  simp [perform, hopcode, Action.changeTop, bind, StateT.bind, Except.bind]

/-- A push of a small number puts the literal on the stack. -/
theorem perform_pushImmediate (hopcode : i.opcode = .pushImmediate) :
    i.perform d f = .ok ([], f.push (.ofShape (.int16 i.int16))) := by
  simp [perform, hopcode, bind, StateT.bind, Except.bind]

/-- The call that stands for no owner. -/
theorem perform_nullObject (hcall : i.isCallTo Reserved.nullObject = true) (hcount : i.argCount = 0) :
    i.perform d f = .ok ([], f.push (.ofShape (.call Reserved.nullObject []))) := by
  obtain ⟨hopcode, hfunction⟩ := isCallTo_iff.mp hcall
  have hnew : Reserved.nullObject ≠ Reserved.newObject := by decide
  have hcopy : Reserved.nullObject ≠ Reserved.copyStatic := by decide
  have hpop : Action.popMany i.address 0 f = .ok ([], f) := by
    have hnone := Action.popMany_pushAll i.address f []
    rwa [Fragment.pushAll_nil] at hnone
  simp [perform, hopcode, performCall, hfunction, hcount, hnew, hcopy, hpop, boundRoutine?, bind,
    StateT.bind, Except.bind]

/-- Binding a routine to an owner leaves the routine. -/
theorem perform_method {r : Routine} {owner : Expr} (hcall : i.isCallTo Reserved.method = true)
    (hcount : i.argCount = 2) (hshape : e.shape = .routine r) :
    i.perform d ((f.push e).push owner) = .ok ([], f.push e) := by
  obtain ⟨hopcode, hfunction⟩ := isCallTo_iff.mp hcall
  have hnew : Reserved.method ≠ Reserved.newObject := by decide
  have hcopy : Reserved.method ≠ Reserved.copyStatic := by decide
  have hpop : Action.popMany i.address 2 ((f.push e).push owner) = .ok ([owner, e], f) :=
    Action.popMany_pushAll i.address f [owner, e]
  simp [perform, hopcode, performCall, hfunction, hcount, hnew, hcopy, hpop, boundRoutine?, hshape,
    bind, StateT.bind, Except.bind]

/-- A copy of one variable slot. -/
theorem perform_dup (hdup : i.isPlainDup = true) (htype : i.type1 = .variable)
    (hsize : i.dupSize = 0) (hslot : e.slot = .variable) :
    i.perform d (f.push e) =
      .ok ([], (f.push { e with duplicated := true }).push { e with duplicated := true }) := by
  obtain ⟨hopcode, hswap⟩ := isPlainDup_iff.mp hdup
  have htake : Segment.take 16 (e :: f.stack) = some ⟨[e], f.stack, 0⟩ := by
    cases hstack : f.stack <;> simp [Segment.take, hslot, SlotType.size]
  have hcopy : i.copyRegion (e :: f.stack) =
      .ok ({ e with duplicated := true } :: { e with duplicated := true } :: f.stack) := by
    simp [copyRegion, htype, hsize, SlotType.size, takeSegment, htake, bind, Except.bind]
  simp [perform, hopcode, performDuplicate, hswap, Fragment.push, hcopy, bind, StateT.bind,
    Except.bind]

/-- A store for an instance that is on the stack: the value lies below it. -/
theorem perform_store_member {v : VarRef} {owner : Expr} (hopcode : i.opcode = .pop)
    (htarget : i.target = some v) (hreference : i.reference = .stackTop) (htype : i.type1 ≠ .int32)
    (howner : owner.isStackTopMarker = false) (hbit : e.bit? = none)
    (hplain : e.isStructConstructor = false) :
    i.perform d ((f.push e).push owner) =
      .ok ([.assign (.ofShape (.access ⟨v, .stackTop, owner, none, false, none⟩)) e],
        f.noteLocals v.localName) := by
  have hstored : stored i.type2 e = e := stored_eq_self fun _ => hbit
  have hpopOwner (g : Fragment) : i.popOwner (g.push owner) = .ok (owner, g) := by
    simp [popOwner, howner, bind, StateT.bind, Except.bind]
  simp [perform, hopcode, htarget, store, popAssignment, accessed_eq htarget, htype, writeAccess,
    hreference, hpopOwner, hstored, hplain, bind, StateT.bind, Except.bind]

/-- A call in the usual form has two arguments if it binds, and none if it stands for no owner. -/
theorem argCount_of_isUsual {function : String} (husual : i.isUsual = true)
    (hcall : i.isCallTo function = true) :
    (function = Reserved.method → i.argCount = 2) ∧
      (function = Reserved.nullObject → i.argCount = 0) := by
  obtain ⟨hopcode, hfunction⟩ := isCallTo_iff.mp hcall
  simp only [isUsual, hopcode, hfunction, Bool.and_eq_true, Bool.or_eq_true, bne_iff_ne, ne_eq,
    Option.some.injEq, beq_iff_eq] at husual
  exact ⟨husual.1.resolve_left ∘ not_not_intro, husual.2.resolve_left ∘ not_not_intro⟩

end Instruction

/-- Straight code is built instruction by instruction. -/
theorem buildPieces_map_op (replay : Replay) (code : List Instruction) :
    buildPieces replay (code.map .op) = Building.replayAll replay code := by
  induction code with
  | nil => rfl
  | cons i code ih =>
    rw [List.map_cons, buildPieces, ih]
    funext s
    simp only [Piece.build, Building.replayAll, bind, StateT.bind, Except.bind, List.foldlM_cons,
      List.foldlM_nil]
    cases replay ⟨s.fragment, s.output⟩ i <;> rfl

namespace Binding

variable {d : Dialect} {f : Fragment} {function : String} {v : VarRef} {r : Routine}

/-- The code of an owner puts it on the stack. -/
theorem OwnerCode.emits {place : Instruction} {code : List Instruction}
    (hcode : OwnerCode place code) (husual : ∀ i ∈ code, i.isUsual = true) :
    ∃ owner : Expr, ∀ f, Emits d (code.map .op) f (f.push owner) [] := by
  cases hcode with
  | @ofInstance owner conversion hopcode hraw hconversion =>
    refine ⟨(Expr.ofShape (.int16 owner.int16)).convert conversion.type1 conversion.type2,
      fun f => ?_⟩
    have hfirst : Emits d [.op owner] f (f.push (.ofShape (.int16 owner.int16))) [] :=
      .op (Instruction.perform_pushImmediate hopcode) (by simp [Instruction.isReturn, hopcode])
    obtain ⟨⟨hconvert, -⟩, -⟩ := Instruction.isIntToVariable_iff.mp hconversion
    exact hfirst.append (.op (Instruction.perform_convert hconvert)
      (by simp [Instruction.isReturn, hconvert]))
  | @ofNone nullObject hcall =>
    refine ⟨.ofShape (.call Reserved.nullObject []), fun f => ?_⟩
    have hcount := (Instruction.argCount_of_isUsual (husual _ List.mem_cons_self) hcall).2 rfl
    have hopcode : nullObject.opcode = .call := (Instruction.isCallTo_iff.mp hcall).1
    exact .op (Instruction.perform_nullObject hcall hcount) (by simp [Instruction.isReturn, hopcode])

/-- A routine on the stack after it was copied. -/
def copy (r : Routine) : Expr :=
  { Expr.ofShape (.routine r) with duplicated := true }

/-- The assignment of a routine to a variable of an owner. -/
def assignment (v : VarRef) (owner : Expr) (r : Routine) : Stmt :=
  .assign (.ofShape (.access ⟨v, .stackTop, owner, none, false, none⟩)) (copy r)

/-- The fragment after a function was bound and stored to a variable: the function is no longer
pending, the variable is noted if it is a local one, and a copy of the function is on the stack. -/
def after (f : Fragment) (function : String) (v : VarRef) (r : Routine) : Fragment :=
  ({ f with pending := f.pending.filter (·.1 != function) }.noteLocals v.localName).push (copy r)

/-- After a binding was replayed, a marked copy of the function is left on top. -/
theorem stack_after (f : Fragment) (function : String) (v : VarRef) (r : Routine) :
    (after f function v r).stack = copy r :: f.stack := by
  rw [after, Fragment.noteLocals_eq]
  rfl

/-- Only the function that was bound is no longer pending. -/
theorem lookup_pending_after (f : Fragment) (function : String) (v : VarRef) (r : Routine)
    (other : String) :
    (after f function v r).pending.lookup other =
      if other = function then none else f.pending.lookup other := by
  rw [after, Fragment.pending_push, Fragment.pending_noteLocals, Fragment.lookup_filter_ne]

/-- Replaying the code of a binding takes the function that is pending, assigns it to the variable,
and leaves a copy of it on the stack. -/
theorem Binds.emits {tail : List Instruction} (hbinds : Binds function v tail)
    (husual : ∀ i ∈ tail, i.isUsual = true) (hpending : f.pending.lookup function = some r)
    (hplain : r.fragment.isStruct = false) :
    ∃ owner, Emits d (tail.map .op) f (after f function v r) [assignment v owner r] := by
  obtain ⟨hpush, hconversion, howner, hmethod, hdup, hplace, hpop, htarget⟩ := hbinds
  rename_i push conversion method dup place pop ownerCode
  let taken : Fragment := { f with pending := f.pending.filter (·.1 != function) }
  let value : Expr := .ofShape (.routine r)
  let instance' : Expr := .ofShape (.int16 place.int16)
  have husualOwner : ∀ i ∈ ownerCode, i.isUsual = true := fun i hi => husual i (by simp [hi])
  have husualMethod : method.isUsual = true := husual _ (by simp)
  have husualDup : dup.isUsual = true := husual _ (by simp)
  have husualPlace : place.isUsual = true := husual _ (by simp)
  have husualPop : pop.isUsual = true := husual _ (by simp)
  obtain ⟨⟨hconvert, hsource⟩, hslot⟩ := Instruction.isIntToVariable_iff.mp hconversion
  obtain ⟨owner, howner⟩ := howner.emits husualOwner
  have hfetch : Emits d [.op push] f (taken.push value) [] := by
    have hopcode := (Instruction.pushedFunction?_eq_some.mp hpush).1.1
    exact .op (Instruction.perform_pushedFunction hpush hpending)
      (by simp [Instruction.isReturn, hopcode])
  have hconverted : Emits d [.op conversion] (taken.push value) (taken.push value) [] := by
    have hsame : value.convert conversion.type1 conversion.type2 = value := by
      rw [hsource, hslot]
      rfl
    have hperform := Instruction.perform_convert (d := d) (f := taken) (e := value) hconvert
    rw [hsame] at hperform
    exact .op hperform (by simp [Instruction.isReturn, hconvert])
  have hbound : Emits d [.op method] ((taken.push value).push owner) (taken.push value) [] := by
    have hcount := (Instruction.argCount_of_isUsual husualMethod hmethod).1 rfl
    have hopcode := (Instruction.isCallTo_iff.mp hmethod).1
    exact .op (Instruction.perform_method hmethod hcount rfl)
      (by simp [Instruction.isReturn, hopcode])
  have hcopied : Emits d [.op dup] (taken.push value) ((taken.push (copy r)).push (copy r)) [] := by
    have hopcode := (Instruction.isPlainDup_iff.mp hdup).1
    simp only [Instruction.isUsual, hopcode, Bool.and_eq_true, beq_iff_eq] at husualDup
    exact .op (Instruction.perform_dup hdup husualDup.1 husualDup.2 rfl)
      (by simp [Instruction.isReturn, hopcode])
  have hplaced : Emits d [.op place] ((taken.push (copy r)).push (copy r))
      (((taken.push (copy r)).push (copy r)).push instance') [] :=
    .op (Instruction.perform_pushImmediate hplace) (by simp [Instruction.isReturn, hplace])
  have hmarker : instance'.isStackTopMarker = false := by
    simp only [Instruction.isUsual, hplace, bne_iff_ne] at husualPlace
    exact beq_false_of_ne husualPlace
  have hstored : Emits d [.op pop] (((taken.push (copy r)).push (copy r)).push instance')
      (after f function v r) [assignment v instance' r] := by
    simp only [Instruction.isUsual, hpop, Bool.and_eq_true, beq_iff_eq, bne_iff_ne] at husualPop
    rw [after, ← Fragment.noteLocals_push]
    exact .op (Instruction.perform_store_member hpop htarget husualPop.1 husualPop.2 hmarker rfl
      hplain) (by simp [Instruction.isReturn, hpop])
  refine ⟨instance', ?_⟩
  have hwhole := (hfetch.append hconverted).append (howner (taken.push value)) |>.append
    (((hbound.append hcopied).append hplaced).append hstored)
  simpa using hwhole

end Binding

/-- Finishing a routine does not change its name. -/
theorem Config.name_finishRoutine (c : Config) (r : Routine) : (c.finishRoutine r).name = r.name := by
  unfold Config.finishRoutine
  cases r.fragment.isStruct <;> cases c.settings.foldDefaults <;> rfl

/-- Tidying a routine does not change its name. -/
theorem Routine.name_tidy {c : Config} {r r' : Routine} {values : Option (List Expr)}
    {scopes scopes' : Scopes} (hrun : r.tidy c values scopes = .ok (r', scopes')) :
    r'.name = r.name := by
  obtain ⟨name, isConstructor, body, fragment, defaults, parameters, blankBefore, blankAfter⟩ := r
  rw [Routine.tidy] at hrun
  obtain ⟨⟨body, scopes₁⟩, -, hrun⟩ := exists_of_bind_eq_ok hrun
  obtain ⟨⟨parentCall, scopes₂⟩, -, hrun⟩ := exists_of_bind_eq_ok hrun
  obtain ⟨⟨inner, scopes₃⟩, -, hrun⟩ := exists_of_bind_eq_ok hrun
  cases hrun
  exact c.name_finishRoutine _

/-- A routine is no integer that could be read as a name. -/
theorem Config.assign_routine (c : Config) {target value : Expr} {a : Access} {r : Routine}
    (htarget : target.access? = some a) (hvalue : value.shape = .routine r)
    (hname : r.name = some a.target.name) : c.assign target value = .routine r := by
  have hinteger : value.integer? = none := by simp [Expr.integer?, hvalue]
  have hread : (c.readBeside target value).getD value = value := by
    unfold Config.readBeside
    rw [htarget, Option.bind_some]
    cases c.readings.byVariable[a.target.name]? with
    | none => rfl
    | some reading => simp [Reading.apply, hinteger]
  simp [Config.assign, hread, hvalue, hname, htarget]

/-- The assignment of a routine to a variable of its own name is tidied into its declaration. -/
theorem Stmt.tidy_assign_routine (c : Config) {f : Fragment} (outer : Scopes) {a : Access}
    {value : Expr} {r : Routine} (hvalues : f.structArguments = none)
    (hvalue : value.shape = .routine r) (hname : r.name = some a.target.name) :
    ∃ r' f', (Stmt.assign (.ofShape (.access a)) value).tidy c (f :: outer) =
        .ok (.routine r', f' :: outer) ∧
      (Stmt.routine r).tidy c (f' :: outer) = .ok (.routine r', f' :: outer) ∧
      r'.name = r.name := by
  obtain ⟨a', f', haccess, -⟩ := a.tidy_passes c outer f
  obtain ⟨r', hroutine, -⟩ := r.tidy_passes c r.fragment.structArguments outer f'
  have htarget : (Expr.ofShape (.access a)).tidy c (f :: outer) =
      .ok ({ Expr.ofShape (.access a) with shape := .access a' }, f' :: outer) := by
    apply Expr.tidy_of_shape (Shape.substitute?_eq_none hvalues)
    exact Tidying.bind_eq haccess rfl
  have hassigned : value.tidy c (f' :: outer) =
      .ok ({ value with shape := .routine r' }, f' :: outer) := by
    apply Expr.tidy_of_shape
    · rw [hvalue]
      rfl
    · rw [hvalue]
      exact Tidying.bind_eq hroutine rfl
  have hkept : r'.name = some a'.target.name := by
    rw [Routine.name_tidy hroutine, (Access.tidy_keeps haccess).target_eq, hname]
  have hdeclares : c.assign { Expr.ofShape (.access a) with shape := .access a' }
      { value with shape := .routine r' } = .routine r' := c.assign_routine rfl rfl hkept
  refine ⟨r', f', ?_, Tidying.bind_eq hroutine rfl, Routine.name_tidy hroutine⟩
  rw [← hdeclares]
  exact Tidying.bind_eq htarget (Tidying.bind_eq hassigned rfl)

namespace Printer

variable {p q r : Printer}

/-- The text was written on. -/
def Extends (p q : Printer) : Prop :=
  ∃ rest, q.text = p.text ++ rest

/-- A text that was written on twice was written on. -/
theorem Extends.trans (hfirst : p.Extends q) (hsecond : q.Extends r) : p.Extends r := by
  obtain ⟨first, hfirst⟩ := hfirst
  obtain ⟨second, hsecond⟩ := hsecond
  exact ⟨first ++ second, by rw [hsecond, hfirst, String.append_assoc]⟩

/-- A text that stays was written on, with nothing. -/
theorem Extends.of_text_eq (htext : q.text = p.text) : p.Extends q :=
  ⟨"", by rw [htext, String.append_empty]⟩

/-- Writing text writes on. -/
theorem extends_write (p : Printer) (text : String) : p.Extends (p.write text) :=
  ⟨text, rfl⟩

/-- Ending a line writes on. -/
theorem extends_endLine (p : Printer) : p.Extends p.endLine :=
  ⟨"\n", rfl⟩

/-- Starting a line writes its indentation, one part after another. -/
theorem extends_startLine (p : Printer) : p.Extends p.startLine := by
  have hindent (count : Nat) (indent text : String) :
      ∃ rest, (List.replicate count indent).foldl (· ++ ·) text = text ++ rest := by
    induction count generalizing text with
    | zero => exact ⟨"", String.append_empty.symm⟩
    | succ count ih =>
      obtain ⟨rest, hrest⟩ := ih (text ++ indent)
      exact ⟨indent ++ rest, by rw [List.replicate_succ, List.foldl_cons, hrest,
        String.append_assoc]⟩
  exact hindent p.level p.settings.indent p.text

/-- Going on before a brace writes a space or starts a new line. -/
theorem extends_breakBeforeBrace (p : Printer) : p.Extends p.breakBeforeBrace := by
  unfold breakBeforeBrace
  split
  · exact p.extends_write " "
  · exact p.extends_endLine.trans (extends_startLine _)

/-- Opening a block on the same line writes a brace and ends the line. -/
theorem extends_openInline (p : Printer) : p.Extends p.openInline :=
  ((p.extends_write "\x7b").trans (extends_endLine _)).trans (.of_text_eq rfl)

/-- Opening a block writes on, in both styles. -/
theorem extends_openBlock (p : Printer) : p.Extends p.openBlock := by
  unfold openBlock
  split
  · exact p.extends_breakBeforeBrace.trans (extends_openInline _)
  · exact p.extends_openInline

/-- Closing a block starts a line and writes a brace. -/
theorem extends_closeBlock (p : Printer) : p.Extends p.closeBlock := by
  have hoff : p.Extends { p with level := p.level - 1 } := .of_text_eq rfl
  exact (hoff.trans (extends_startLine _)).trans (extends_write _ "\x7d")

/-- A step adds to the text. -/
theorem extends_step (p : Printer) (s : Step) : p.Extends (p.step s) := by
  cases s with
  | write text => exact p.extends_write text
  | function name => exact p.extends_write _
  | startLine => exact p.extends_startLine
  | endLine => exact p.extends_endLine
  | blankLine => exact ⟨"\n", rfl⟩
  | openBlock => exact p.extends_openBlock
  | openInline => exact p.extends_openInline
  | closeBlock => exact p.extends_closeBlock
  | continueAfter keyword => exact p.extends_breakBeforeBrace.trans (extends_write _ keyword)
  | enter fragment => exact .of_text_eq rfl
  | leave => exact .of_text_eq rfl

/-- Steps add to the text. -/
theorem extends_run (p : Printer) (steps : List Step) : p.Extends (p.run steps) := by
  induction steps generalizing p with
  | nil => exact .of_text_eq rfl
  | cons s steps ih => exact (p.extends_step s).trans (ih (p.step s))

/-- The text of a routine that has a name begins with the name. -/
theorem text_routine (p : Printer) {r : Routine} {name : String} {steps : List Step}
    (hname : r.name = some name) (hsteps : r.steps = .ok steps) :
    ∃ rest, (p.run steps).text = p.text ++ "function " ++ name ++ "(" ++ rest := by
  obtain ⟨_, isConstructor, body, fragment, defaults, parameters, blankBefore, blankAfter⟩ := r
  obtain rfl : _ = some name := hname
  rw [Routine.steps] at hsteps
  obtain ⟨parameterSteps, -, hsteps⟩ := exists_of_bind_eq_ok hsteps
  obtain ⟨parentCall, -, hsteps⟩ := exists_of_bind_eq_ok hsteps
  obtain ⟨bodySteps, -, hsteps⟩ := exists_of_bind_eq_ok hsteps
  cases hsteps
  simp only [Routine.heading, List.append_assoc, List.cons_append, run_cons]
  exact extends_run _ _

/-- The text of a call begins with the name that the function is shown under. -/
theorem text_call (p : Printer) {function : String} {arguments : List Expr} {steps : List Step}
    (hsteps : (Shape.call function arguments).steps = .ok steps) :
    ∃ rest, (p.run steps).text = p.text ++ p.shownName function ++ "(" ++ rest := by
  rw [Shape.steps] at hsteps
  obtain ⟨argumentSteps, -, hsteps⟩ := exists_of_bind_eq_ok hsteps
  cases hsteps
  simp only [List.append_assoc, List.cons_append, run_cons]
  exact extends_run _ _

end Printer

/-- The code after the fragments of a script that is looked at for bindings. -/
def Script.scanned (s : Script) : List (List Instruction) :=
  (s.fragments.drop 1).filterMap fun successors =>
    match successors with
    | .block code :: _ => some code.code
    | _ => none

/-- The bindings of a script are recognised in the code that is scanned, one piece after another. -/
theorem Script.bindings_eq (s : Script) : s.bindings = s.scanned.filterMap Binding.ofCode? := by
  unfold Script.bindings Script.scanned
  rw [List.filterMap_filterMap]
  congr 1
  funext successors
  match successors with
  | .block code :: _ | .other :: _ | [] => rfl

/-- The printer has the names that were found by scanning scripts. The code was scanned, and neither
the scripts nor the innermost scope call the function by another name. -/
structure Printer.Knows (p : Printer) (code : List Instruction) (function name : String) : Prop where
  scanned : ∃ scripts, p.functionNames = .ofScripts scripts ∧ (∃ s ∈ scripts, code ∈ s.scanned) ∧
    ∀ other, (function, other) ∈ scripts.flatMap Script.bindings → other = name
  scope : ∀ other, p.scopes.head?.bind (·.routineNames[function]?) = some other → other = name

/-- A function is shown under the name that was recognised. -/
theorem Printer.Knows.shownName_eq {p : Printer} {code : List Instruction} {function name : String}
    (hknows : p.Knows code function name)
    (hcode : Binding.ofCode? code = some (function, name)) : p.shownName function = name := by
  obtain ⟨scripts, hnames, ⟨s, hs, hscanned⟩, honly⟩ := hknows.scanned
  have hmem : (function, name) ∈ scripts.flatMap Script.bindings := by
    rw [List.mem_flatMap]
    refine ⟨s, hs, ?_⟩
    rw [s.bindings_eq]
    exact List.mem_filterMap.mpr ⟨code, hscanned, hcode⟩
  have hglobal : p.functionNames.nameOf? function = some name := by
    rw [hnames]
    exact FunctionNames.nameOf?_insertAll hmem honly
  unfold Printer.shownName
  split
  · rename_i other hother
    exact hknows.scope other hother
  · rw [hglobal, Option.getD_some]

/-- The scan and the machine agree on what a binding binds. Where the scan recognises that a
function gets a name, the machine takes the function, which is pending, adds one statement, the
assignment of the function to the variable of that name, and leaves the stack with a copy of the
function on top. If the function has that name itself, the assignment is tidied into its
declaration, and the name in the text of the declaration is the one that its calls are shown
under. -/
theorem binding_replayed_as_scanned (d : Dialect) {code : List Instruction} {function name : String}
    (hcode : Binding.ofCode? code = some (function, name))
    (husual : ∀ i ∈ Binding.tail code, i.isUsual = true) {f : Fragment} {r : Routine}
    (hpending : f.pending.lookup function = some r) (hplain : r.fragment.isStruct = false) :
    Binding.ofCode? (Binding.tail code) = some (function, name) ∧
    ∃ v owner, v.name = name ∧
      (∀ output declared,
        Building.replayAll (Machine.step d) (Binding.tail code) ⟨f, output, declared⟩ =
          .ok ((), ⟨Binding.after f function v r, output ++ [Binding.assignment v owner r],
            declared⟩)) ∧
      (Binding.after f function v r).stack = Binding.copy r :: f.stack ∧
      (∀ other, (Binding.after f function v r).pending.lookup other =
        if other = function then none else f.pending.lookup other) ∧
      (r.name = some name → ∀ (c : Config) (scope : Fragment) (outer : Scopes),
        scope.structArguments = none → ∃ r' scope',
          (Binding.assignment v owner r).tidy c (scope :: outer) =
            .ok (.routine r', scope' :: outer) ∧
          (Stmt.routine r).tidy c (scope' :: outer) = .ok (.routine r', scope' :: outer) ∧
          ∀ p : Printer, p.Knows code function name →
            (∀ steps, (Stmt.routine r').steps = .ok steps → ∃ rest, (p.run steps).text =
              p.text ++ "function " ++ p.shownName function ++ "(" ++ rest) ∧
            (∀ arguments steps, (Shape.call function arguments).steps = .ok steps → ∃ rest,
              (p.run steps).text = p.text ++ name ++ "(" ++ rest)) := by
  obtain ⟨v, rfl, hbinds⟩ := Binding.binds_of_ofCode? hcode
  obtain ⟨owner, hemits⟩ := hbinds.emits husual hpending hplain (d := d)
  have halone : Binding.ofCode? (Binding.tail code) = some (function, v.name) := by
    have hnothing := hbinds.ofCode?_append []
    rwa [List.append_nil] at hnothing
  refine ⟨halone, v, owner, rfl, fun output declared => ?_, Binding.stack_after f function v r,
    Binding.lookup_pending_after f function v r, fun hname c scope outer hvalues => ?_⟩
  · rw [← buildPieces_map_op]
    exact hemits output declared
  · let target : Access := ⟨v, .stackTop, owner, none, false, none⟩
    have hshape : (Binding.copy r).shape = .routine r := rfl
    have hsame : r.name = some target.target.name := hname
    obtain ⟨r', scope', htidy, hdeclared, hkept⟩ :=
      Stmt.tidy_assign_routine c outer hvalues hshape hsame
    refine ⟨r', scope', htidy, hdeclared, fun p hknows => ⟨fun steps hsteps => ?_,
      fun arguments steps hsteps => ?_⟩⟩
    · rw [hknows.shownName_eq hcode]
      exact p.text_routine (hkept.trans hname) hsteps
    · have htext := p.text_call hsteps
      rwa [hknows.shownName_eq hcode] at htext

namespace Sample

/-- A function that clamps its argument. -/
def clampRoutine : Routine where
  name := some "clamp01"
  body := ⟨[.exit], true⟩
  fragment := { codeName := "gml_Script_clamp01", name := some "clamp01" }

/-- A script that declares the function and has not bound it yet. -/
def utilFragment : Fragment where
  codeName := "gml_GlobalScript_util"
  stack := [.ofShape (.int16 7)]
  pending := [("gml_Script_clamp01", clampRoutine)]

/-- A text with the names of the libraries. -/
def libraryPrinter : Printer where
  functionNames := .ofScripts libraries

end Sample

/-- The function is bound as a method. It is declared under the name that the scan has found, and
calls of it are shown under that name. -/
theorem binding_replayed_as_scanned_clamp :
    let code := Sample.methodTail "gml_Script_clamp01" "clamp01"
    Binding.ofCode? code = some ("gml_Script_clamp01", "clamp01") ∧
      (∀ i ∈ Binding.tail code, i.isUsual = true) ∧
      Sample.utilFragment.pending.lookup "gml_Script_clamp01" = some Sample.clampRoutine ∧
      Sample.clampRoutine.fragment.isStruct = false ∧
      Sample.libraryPrinter.Knows code "gml_Script_clamp01" "clamp01" ∧
      ∃ v owner, v.name = "clamp01" ∧
        Building.replayAll (Machine.step Version.current.dialect) (Binding.tail code)
            ⟨Sample.utilFragment, [.exit], []⟩ =
          .ok ((), ⟨Binding.after Sample.utilFragment "gml_Script_clamp01" v Sample.clampRoutine,
            [.exit, Binding.assignment v owner Sample.clampRoutine], []⟩) ∧
        ∃ r' scope', (Binding.assignment v owner Sample.clampRoutine).tidy {} [{}] =
            .ok (.routine r', [scope']) ∧
          ∀ steps, (Stmt.routine r').steps = .ok steps → ∃ rest,
            (Sample.libraryPrinter.run steps).text =
              "" ++ "function " ++ Sample.libraryPrinter.shownName "gml_Script_clamp01" ++ "(" ++
                rest := by
  intro code
  have hcode : Binding.ofCode? code = some ("gml_Script_clamp01", "clamp01") := by decide +kernel
  have husual : ∀ i ∈ Binding.tail code, i.isUsual = true := by decide +kernel
  have hpending : Sample.utilFragment.pending.lookup "gml_Script_clamp01" =
      some Sample.clampRoutine := rfl
  have hplain : Sample.clampRoutine.fragment.isStruct = false := by decide +kernel
  have hbindings : Sample.libraries.flatMap Script.bindings =
      [("gml_Script_clamp01", "clamp01"), ("gml_Script_lerp01", "lerp01"),
        ("gml_Script_Vec2", "Vec2")] := by decide +kernel
  have hknows : Sample.libraryPrinter.Knows code "gml_Script_clamp01" "clamp01" := by
    refine ⟨⟨Sample.libraries, rfl, by decide +kernel, fun other hother => ?_⟩, ?_⟩
    · rw [hbindings] at hother
      simpa using hother
    · intro other hother
      cases hother
  obtain ⟨-, v, owner, hname, hreplay, -, -, hdeclares⟩ :=
    binding_replayed_as_scanned Version.current.dialect hcode husual hpending hplain
  obtain ⟨r', scope', htidy, -, hprinted⟩ := hdeclares rfl {} {} [] rfl
  exact ⟨hcode, husual, hpending, hplain, hknows, v, owner, hname, hreplay [.exit] [], r', scope',
    htidy, (hprinted Sample.libraryPrinter hknows).1⟩

end GmlDecompiler

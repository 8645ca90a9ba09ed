import GmlDecompiler.Proofs.Codegen.Replay
import GmlDecompiler.Proofs.Codegen.Sameness

/-!
# Building undoes code generation

The code of a program builds to the trees of the program. The fragment notes the local
variables that the code refers to and is otherwise as it was. A return inside a guarded block
has a copy of the cleanup before it; the copy is dropped again, and nothing else is.
-/

namespace GmlDecompiler

/-- Of an output that ends with statements, exactly these are dropped. -/
theorem dropTrailing_append {ss : List Stmt} (hss : sameStmts ss ss = true) (output : List Stmt) :
    dropTrailing ss (output ++ ss) = output := by
  simp [dropTrailing, hss]

namespace Instruction

variable {d : Dialect} {f : Fragment}

/-- A store finds its value on top of its operands or below them, as its first type says. -/
theorem popAssignment_place {place : Place} (type1 type2 : SlotType)
    (hwritable : place.Writable) (hplace : place.WellFormed d) (value : Expr) :
    (place.storeAs type1 type2).popAssignment d
        (if type1 = .int32 then (f.pushAll place.operands).push value
          else (f.push value).pushAll place.operands) =
      .ok ((place.access false, value), f.noteLocals place.target.localName) := by
  have htarget : (place.storeAs type1 type2).target = some place.target := rfl
  have htype : (place.storeAs type1 type2).type1 = type1 := rfl
  have hwrite (g : Fragment) := writeAccess_place (f := g) type1 type2 hwritable hplace
  by_cases hfirst : type1 = .int32
  · simp only [popAssignment, htype, if_pos hfirst, accessed_eq htarget, Fragment.noteLocals_push,
      Fragment.noteLocals_pushAll, Action.pop_push, hwrite, bind, StateT.bind, Except.bind,
      pure_apply]
  · simp only [popAssignment, htype, if_neg hfirst, accessed_eq htarget, Fragment.noteLocals_push,
      Fragment.noteLocals_pushAll, Action.pop_push, hwrite, bind, StateT.bind, Except.bind,
      pure_apply]

/-- A value that is not a bit, or not stored as a truth value, is stored as it is. -/
theorem stored_eq_self {type : SlotType} {value : Expr}
    (hvalue : type = .boolean → value.bit? = none) : stored type value = value := by
  unfold stored
  split
  · rename_i bit hbit
    rw [hvalue rfl] at hbit
    cases hbit
  · rfl

/-- A store of a term gives an assignment. -/
theorem perform_store {place : Place} {type1 type2 : SlotType} {value : Term}
    (hwritable : place.Writable) (hplace : place.WellFormed d)
    (hvalue : type2 = .boolean → value.tree.bit? = none) :
    (place.storeAs type1 type2).perform d
        (if type1 = .int32 then (f.pushAll place.operands).push value.tree
          else (f.push value.tree).pushAll place.operands) =
      .ok ([.assign (.ofShape (.access (place.access false))) value.tree],
        f.noteLocals place.target.localName) := by
  have hassignment := popAssignment_place (f := f) type1 type2 hwritable hplace value.tree
  have htype : (place.storeAs type1 type2).type2 = type2 := rfl
  have hduplicated : value.tree.duplicated = false := by cases value <;> rfl
  change (place.storeAs type1 type2).store d _ = _
  simp only [store, hassignment, htype, stored_eq_self hvalue, hduplicated, Bool.false_and,
    Bool.false_eq_true, if_false, bind, StateT.bind, Except.bind, pure_apply]

/-- A return takes its value off the stack. -/
theorem perform_ret (value : Expr) :
    (plain .ret).perform d (f.push value) = .ok ([.ret value], f) := by
  simp [perform, plain, bind, StateT.bind, Except.bind]

/-- A discarded term that is no variable is a statement. -/
theorem perform_popDelete {value : Term} (hvalue : value.tree.access? = none) :
    (plain .popDelete).perform d (f.push value.tree) = .ok ([.eval value.tree], f) := by
  have hduplicated : value.tree.duplicated = false := by cases value <;> rfl
  change discard (f.push value.tree) = _
  simp [discard, hduplicated, hvalue]

end Instruction

namespace Emits

variable {d : Dialect} {ps : List Piece} {f g h : Fragment} {ss : List Stmt}

/-- A return drops the copy of the cleanup that was added before it. -/
theorem returning {i : Instruction} {copied : List Stmt} (hps : Emits d ps f g copied)
    (hperform : i.perform d g = .ok (ss, h)) (hreturn : i.isReturn = true)
    (hdrop : ∀ output, h.dropCleanupCopy (output ++ copied) = output) :
    Emits d (ps ++ [.op i]) f h ss := by
  intro output declared
  have hstep : Machine.step d ⟨g, output ++ copied⟩ i = .ok ⟨h, output ++ ss⟩ := by
    simp [Machine.step, hperform, hreturn, hdrop, bind, Except.bind]
  rw [buildPieces_append]
  simp [hps output declared, buildPieces, Piece.build, Building.replayAll, hstep, bind, StateT.bind,
    Except.bind]

/-- A branch gives the statements of its parts. -/
theorem branch {elsePart : Option (List Node)} {es : Option (List Stmt)} (condition : Expr)
    (hps : Emits d ps f g ss)
    (helse : ∀ output declared, buildOptional (Machine.step d) elsePart ⟨g, output, declared⟩ =
      .ok (es, ⟨h, output, declared⟩)) :
    Emits d [.node (.branch (Piece.pack ps) elsePart)] (f.push condition) h
      [.branch condition ⟨ss, true⟩ (es.map (⟨·, true⟩))] := by
  apply Emits.node
  intro output declared
  have hthen := hps.region output declared
  simp only [Node.build, Building.onFragment, Action.popCondition_push, hthen, helse, Building.emit,
    bind, StateT.bind, Except.bind, pure_eq_ok, modify_apply]

/-- A loop gives the statements of its body, which is built as one. -/
theorem loop {qs : List Piece} {condition : Expr} (hps : Emits d ps f (g.push condition) [])
    (hqs : Emits d qs { g with inLoop := true } h ss) :
    Emits d [.node (.loop (Piece.pack ps) (Piece.pack qs))] f { h with inLoop := g.inLoop }
      [.loop condition ⟨ss, true⟩] := by
  apply Emits.node
  intro output declared
  have hcondition := hps.region output declared
  have hbody := hqs.region output declared
  simp only [Node.build, Building.inLoop, Building.onFragment, Building.emit, hcondition,
    List.append_nil, Action.popCondition_push, hbody, bind, StateT.bind, Except.bind, pure_eq_ok,
    pure_apply, get_apply, modify_apply]

/-- A guarded block without a cleanup gives its statements. -/
theorem guarded (hps : Emits d ps f g ss) :
    Emits d [.node (.guarded (Piece.pack ps) none)] f g [.guarded ⟨ss, true⟩ none] := by
  apply Emits.node
  intro output declared
  have hbody := hps.region output declared
  simp only [Node.build, buildOptional, Building.guardedBy, hbody, Building.emit, Option.map_none,
    bind, StateT.bind, Except.bind, pure_apply, modify_apply]

/-- A guarded block with a cleanup gives the statements of both; the cleanup is built first and
is pending while the block is built. -/
theorem guardedBy {qs : List Piece} {cleanup : List Stmt} (hqs : Emits d qs f g cleanup)
    (hps : Emits d ps (g.pushCleanup cleanup) h ss) :
    Emits d [.node (.guarded (Piece.pack ps) (some (Piece.pack qs)))] f h.popCleanup
      [.guarded ⟨ss, true⟩ (some ⟨cleanup, true⟩)] := by
  apply Emits.node
  intro output declared
  have hcleanup := hqs.region output declared
  have hbody := hps.region output declared
  simp only [Node.build, buildOptional, Building.guardedBy, hcleanup, hbody, Building.emit,
    Option.map_some, bind, StateT.bind, Except.bind, pure_apply, modify_apply]

end Emits

/-- What stands before a return: nothing if no cleanup is pending, or else code that gives the
statements of the innermost cleanup once more. -/
def Copies (d : Dialect) (inLoop : Bool) (copy : List Piece) (names : List String) :
    Option (List Stmt) → Prop
  | none => copy = [] ∧ names = []
  | some ss =>
    sameStmts ss ss = true ∧
      ∀ f : Fragment, f.pending = [] → (inLoop = true → f.inLoop = true) →
        Emits d copy f (f.noteLocals names) ss

namespace Copies

variable {d : Dialect} {inLoop : Bool} {copy : List Piece} {names : List String} {f : Fragment}

/-- The copy before a return gives statements that the return drops. -/
theorem emits (hcopies : Copies d inLoop copy names f.cleanup?) (hpending : f.pending = [])
    (hloop : inLoop = true → f.inLoop = true) :
    ∃ copied, Emits d copy f (f.noteLocals names) copied ∧
      ∀ g : Fragment, g.cleanup? = f.cleanup? →
        ∀ output, g.dropCleanupCopy (output ++ copied) = output := by
  cases hcleanup : f.cleanup? with
  | none =>
    rw [hcleanup] at hcopies
    obtain ⟨rfl, rfl⟩ := hcopies
    refine ⟨[], .nil, ?_⟩
    intro g hg output
    simp [Fragment.dropCleanupCopy, hg]
  | some ss =>
    rw [hcleanup] at hcopies
    refine ⟨ss, hcopies.2 f hpending hloop, ?_⟩
    intro g hg output
    simp [Fragment.dropCleanupCopy, hg, dropTrailing_append hcopies.1]

/-- In the body of a loop the same is copied. -/
theorem loop {cleanup : Option (List Stmt)} (hcopies : Copies d inLoop copy names cleanup) :
    Copies d true copy names cleanup := by
  cases cleanup with
  | none => exact hcopies
  | some ss => exact ⟨hcopies.1, fun f hpending hloop => hcopies.2 f hpending fun _ => hloop rfl⟩

end Copies

/-- The code of a store's operands leaves them in the order that the store expects. -/
theorem emits_operands {d : Dialect} {place : Place} {value : Term} (type1 : SlotType)
    (f : Fragment) (hplace : place.WellFormed d) (hvalue : value.WellFormed d)
    (hpending : f.pending = []) :
    let g := f.noteLocals (if type1 = .int32 then place.localNames ++ value.localNames
      else value.localNames ++ place.localNames)
    Emits d (if type1 = .int32 then place.code ++ value.code else value.code ++ place.code) f
      (if type1 = .int32 then (g.pushAll place.operands).push value.tree
        else (g.push value.tree).pushAll place.operands) [] := by
  by_cases htype : type1 = .int32
  · simp only [if_pos htype]
    have hsecond := value.emits_code ((f.noteLocals place.localNames).pushAll place.operands)
      hvalue (by simpa using hpending)
    rw [Fragment.noteLocals_pushAll, ← Fragment.noteLocals_append] at hsecond
    exact (place.emits_code f hplace hpending).append hsecond
  · simp only [if_neg htype]
    have hsecond := place.emits_code ((f.noteLocals value.localNames).push value.tree) hplace
      (by simpa using hpending)
    rw [Fragment.noteLocals_push, ← Fragment.noteLocals_append] at hsecond
    exact (value.emits_code f hvalue hpending).append hsecond

/-- A jump inside a loop is a statement. -/
theorem emits_jump {d : Dialect} {f : Fragment} {n : Node} {jump : LoopJump} {s : Stmt}
    (hbuild : n.build (Machine.step d) = Building.jump jump s) (hloop : f.inLoop = true) :
    Emits d [.node n] f f [s] := by
  apply Emits.node
  intro output declared
  rw [hbuild]
  simp [Building.jump, hloop, Building.emit, bind, StateT.bind, Except.bind]

/-- The tree of an optional block is made of the trees of its commands. -/
theorem optionalTree_eq (part : Option (List Command)) :
    optionalTree part = (part.map commandTrees).map (⟨·, true⟩) := by
  cases part <;> rfl

/-- A cleanup whose copies can be told: it never returns, and it has no NaN in it. -/
def FaithfulCleanup (cs : List Command) : Prop :=
  ReturnlessCommands cs ∧ NotNaNCommands cs

mutual

/-- The code of a command gives the tree of the command. -/
theorem Command.emits_code {d : Dialect} {inLoop : Bool} (c : Command) (f : Fragment)
    (copy : List Piece) (names : List String) (hc : c.WellFormed d inLoop)
    (hcleanups : c.EachCleanup FaithfulCleanup)
    (hcopies : c.Returnless ∨ Copies d inLoop copy names f.cleanup?) (hempty : f.pending = [])
    (hloop : inLoop = true → f.inLoop = true) :
    Emits d (c.code copy) f (f.noteLocals (c.localNames names)) [c.tree] := by
  match c with
  | .assign type1 type2 place value =>
    obtain ⟨hwritable, hplace, hvalue, hbit⟩ := hc
    have hoperands := emits_operands type1 f hplace hvalue hempty
    have hstore := hoperands.append (.op (Instruction.perform_store hwritable hplace hbit) rfl)
    rwa [← Fragment.noteLocals_append] at hstore
  | .eval value =>
    exact (value.emits_code f hc.1 hempty).append (.op (Instruction.perform_popDelete hc.2) rfl)
  | .ret value =>
    obtain ⟨copied, hcopied, hdrop⟩ := (hcopies.resolve_left id).emits hempty hloop
    have hvalue := value.emits_code (f.noteLocals names) hc (by simpa using hempty)
    rw [← Fragment.noteLocals_append] at hvalue
    have hbefore := hcopied.append hvalue
    rw [List.append_nil] at hbefore
    exact hbefore.returning (Instruction.perform_ret value.tree) rfl (hdrop _ (by simp))
  | .exit =>
    obtain ⟨copied, hcopied, hdrop⟩ := (hcopies.resolve_left id).emits hempty hloop
    exact hcopied.returning rfl rfl (hdrop _ (by simp))
  | .leave | .again => exact emits_jump rfl (hloop hc)
  | .branch condition thenPart elsePart =>
    obtain ⟨hcondition, hthen, helse⟩ := hc
    let g := f.noteLocals condition.localNames
    have hpending : g.pending = [] := by simpa [g] using hempty
    have hloop : inLoop = true → g.inLoop = true := by simpa [g] using hloop
    have hfirst := emits_commandCode thenPart g copy names hthen hcleanups.1
      (by simpa [g] using hcopies.imp_left And.left) hpending hloop
    have hsecond := buildOptional_optionalCode elsePart
      (g.noteLocals (commandNames names thenPart)) copy names helse hcleanups.2
      (by simpa [g] using hcopies.imp_left And.right) (by simpa using hpending)
      (by simpa using hloop)
    have hbranch := (condition.emits_code f hcondition hempty).append
      (hfirst.branch condition.tree hsecond)
    rwa [← optionalTree_eq, ← Fragment.noteLocals_append, ← Fragment.noteLocals_append,
      ← List.append_assoc] at hbranch
  | .loop condition body =>
    obtain ⟨hcondition, hbody⟩ := hc
    let g := f.noteLocals condition.localNames
    have hcleanup : ({ g with inLoop := true } : Fragment).cleanup? = f.cleanup? :=
      f.cleanup?_noteLocals _
    have hbody := emits_commandCode body { g with inLoop := true } copy names hbody hcleanups
      (by rw [hcleanup]; exact hcopies.imp_right Copies.loop) (by simpa [g] using hempty)
      (fun _ => rfl)
    have hwhole := (condition.emits_code f hcondition hempty).loop hbody
    rwa [Fragment.noteLocals_inLoop, ← Fragment.noteLocals_append] at hwhole
  | .guarded body none =>
    exact (emits_commandCode body f copy names hc.1 hcleanups.1 (hcopies.imp_left And.left)
      hempty hloop).guarded
  | .guarded body (some cleanup) =>
    obtain ⟨hbody, hcleanup⟩ := hc
    obtain ⟨hbodyCleanups, hinner, hfaithful⟩ := hcleanups
    obtain ⟨hreturnless, hnan⟩ := hfaithful cleanup rfl
    have hcopy (g : Fragment) :=
      emits_commandCode cleanup g [] [] hcleanup hinner (.inl hreturnless)
    let g := (f.noteLocals (commandNames [] cleanup)).pushCleanup (commandTrees cleanup)
    have hbody := emits_commandCode body g (commandCode [] cleanup) (commandNames [] cleanup)
      hbody hbodyCleanups (.inr ⟨sameStmts_commandTrees cleanup hnan, hcopy⟩)
      (by simpa [g] using hempty) (by simpa [g] using hloop)
    have hwhole := (hcopy f hempty hloop).guardedBy hbody
    rwa [Fragment.popCleanup_noteLocals, ← Fragment.noteLocals_append] at hwhole

/-- The code of commands gives their trees. -/
theorem emits_commandCode {d : Dialect} {inLoop : Bool} (cs : List Command) (f : Fragment)
    (copy : List Piece) (names : List String) (hcs : WellFormedCommands d inLoop cs)
    (hcleanups : EachCleanups FaithfulCleanup cs)
    (hcopies : ReturnlessCommands cs ∨ Copies d inLoop copy names f.cleanup?)
    (hpending : f.pending = []) (hloop : inLoop = true → f.inLoop = true) :
    Emits d (commandCode copy cs) f (f.noteLocals (commandNames names cs)) (commandTrees cs) := by
  match cs with
  | [] => exact .nil
  | c :: cs =>
    have hfirst := c.emits_code f copy names hcs.1 hcleanups.1 (hcopies.imp_left And.left)
      hpending hloop
    have hrest := emits_commandCode cs (f.noteLocals (c.localNames names)) copy names hcs.2
      hcleanups.2 (by simpa using hcopies.imp_left And.right) (by simpa using hpending)
      (by simpa using hloop)
    rw [← Fragment.noteLocals_append] at hrest
    exact hfirst.append hrest

/-- The region of commands gives their trees, if there are any commands. -/
theorem buildOptional_optionalCode {d : Dialect} {inLoop : Bool} (part : Option (List Command))
    (f : Fragment) (copy : List Piece) (names : List String)
    (hpart : WellFormedOptional d inLoop part) (hcleanups : EachOptional FaithfulCleanup part)
    (hcopies : ReturnlessOptional part ∨ Copies d inLoop copy names f.cleanup?)
    (hpending : f.pending = []) (hloop : inLoop = true → f.inLoop = true)
    (output : List Stmt) (declared : List (Nat × String)) :
    buildOptional (Machine.step d) (optionalCode copy part) ⟨f, output, declared⟩ =
      .ok (part.map commandTrees,
        ⟨f.noteLocals (optionalNames names part), output, declared⟩) := by
  match part with
  | none => rfl
  | some cs =>
    have hregion := (emits_commandCode cs f copy names hpart hcleanups hcopies hpending
      hloop).region output declared
    simp only [optionalCode, buildOptional, hregion, bind, StateT.bind, Except.bind, pure_apply]
    rfl

end


mutual

/-- A property that follows from another one holds of every cleanup that has the other. -/
theorem Command.EachCleanup.imp {P Q : List Command → Prop} (himp : ∀ cs, P cs → Q cs)
    {c : Command} (hc : c.EachCleanup P) : c.EachCleanup Q := by
  match c with
  | .assign _ _ _ _ | .eval _ | .ret _ | .exit | .leave | .again => trivial
  | .branch _ _ _ => exact ⟨EachCleanups.imp himp hc.1, EachOptional.imp himp hc.2⟩
  | .loop _ _ => exact EachCleanups.imp himp hc
  | .guarded _ _ =>
    obtain ⟨hbody, hinner, hcleanup⟩ := hc
    exact ⟨EachCleanups.imp himp hbody, EachOptional.imp himp hinner,
      fun cs hcs => himp cs (hcleanup cs hcs)⟩

/-- What holds of each cleanup inside the commands may be described more loosely. -/
theorem EachCleanups.imp {P Q : List Command → Prop} (himp : ∀ cs, P cs → Q cs)
    {cs : List Command} (hcs : EachCleanups P cs) : EachCleanups Q cs := by
  match cs with
  | [] => trivial
  | _ :: _ => exact ⟨Command.EachCleanup.imp himp hcs.1, EachCleanups.imp himp hcs.2⟩

/-- The same for commands that may be missing. -/
theorem EachOptional.imp {P Q : List Command → Prop} (himp : ∀ cs, P cs → Q cs)
    {part : Option (List Command)} (hpart : EachOptional P part) : EachOptional Q part := by
  match part with
  | none => trivial
  | some _ => exact EachCleanups.imp himp hpart

end

/-- The code of a program as an entry builds to the statements of the program. -/
theorem build_commandCode {d : Dialect} {cs : List Command} (hcs : WellFormedCommands d false cs)
    (hcleanups : EachCleanups FaithfulCleanup cs) (name : String) (argCount : UInt16) :
    Entry.build d ⟨name, argCount, Piece.pack (commandCode [] cs)⟩ =
      .ok (⟨programTrees cs, false⟩,
        { Fragment.start name none argCount with locals := declaredLocals cs }) := by
  let f := Fragment.start name none argCount
  have hemits := emits_commandCode cs f [] [] hcs hcleanups (.inr ⟨rfl, rfl⟩) rfl (by simp)
  have hregion : buildRegion (Machine.step d) (Piece.pack (commandCode [] cs)) f =
      .ok (commandTrees cs, f.noteLocals (commandNames [] cs)) := by
    simp only [buildRegion, buildNodes_pack, hemits [] [], List.nil_append, bind, Except.bind,
      pure_eq_ok, Draft.close, List.foldl_nil]
  simp only [Entry.build, f, hregion, Fragment.finish,
    Fragment.purgeLocals_noteLocals (f := f) rfl rfl, bind, Except.bind, pure_eq_ok]
  rfl

/-- Building inverts code generation: the code of every program without cleanups builds to the
statements of the program, with nothing left on the stack. -/
theorem build_inverts_codegen {d : Dialect} {cs : List Command}
    (hcs : WellFormedCommands d false cs) (hcleanups : EachCleanups (fun _ => False) cs)
    (name : String) (argCount : UInt16) :
    Entry.build d ⟨name, argCount, Piece.pack (commandCode [] cs)⟩ =
      .ok (⟨programTrees cs, false⟩,
        { Fragment.start name none argCount with locals := declaredLocals cs }) :=
  build_commandCode hcs (hcleanups.imp fun _ hfalse => hfalse.elim) name argCount

namespace Sample

/-- The local variable `total`. -/
def total : Place := .plain ⟨"total", .locals⟩ .locals

/-- The number of lives of another instance. -/
def lives : Place :=
  .member ⟨"lives", .stackTop⟩ (.read .push (.plain ⟨"rival", .own⟩ .own)) true

/-- An element of an array of the instance itself. -/
def slot : Place := .element .array ⟨"slots", .own⟩ (.literal (.int16 (-1))) false
  (.binary (.plain .add) (.read .pushLocal total) (.literal (.int32 1)))

/-- A loop over stores in both orders, calls of all kinds and jumps. -/
def search : List Command :=
  [.assign .variable .int16 total (.literal (.int16 0)),
    .loop (.binary (.compare .less .variable .int32) (.read .pushLocal total)
        (.literal (.int32 9)))
      [.branch (.chain .and [.unary (.plain .not) (.read .push lives), .function "ready"])
        [.leave] (some [.assign .int32 .variable slot
          (.construct (.function "Slot") [.literal (.string "a"), .read .pushLocal total]),
          .again]),
      .eval (.call "wait" [.literal (.int16 1), .literal (.boolean true)])],
    .guarded [.eval (.callValue (.function "next") (.read .push lives) [])] none,
    .ret (.read .pushLocal total)]

end Sample

/-- The loop is well-formed and has no cleanup. -/
theorem build_inverts_codegen_search :
    Entry.build Version.current.dialect
        ⟨"gml_Script_search", 2, Piece.pack (commandCode [] Sample.search)⟩ =
      .ok (⟨.locals ["total"] :: commandTrees Sample.search, false⟩,
        { Fragment.start "gml_Script_search" none 2 with locals := ["total"] }) := by
  have hlocals : declaredLocals Sample.search = ["total"] := by decide
  have hwellFormed : WellFormedCommands Version.current.dialect false Sample.search := by
    simp only [Sample.search, Sample.total, Sample.lives, Sample.slot, WellFormedCommands,
      Command.WellFormed, WellFormedOptional, Term.WellFormed, Place.WellFormed,
      WellFormedTerms, Place.Writable, Place.Readable, Place.OwnerClear, and_true, true_and,
      true_or, forall_const]
    decide
  have hcleanups : EachCleanups (fun _ => False) Sample.search := by
    simp [Sample.search, EachCleanups, Command.EachCleanup, EachOptional]
  have hbuild := build_inverts_codegen hwellFormed hcleanups "gml_Script_search" 2
  rwa [programTrees, hlocals] at hbuild

/-- Removing inlined cleanups inverts inlining them. Every return inside a guarded block has a copy
of the innermost cleanup before it; the program builds to its statements without the copies, and
a statement of the program's own that equals the cleanup stays. Only a cleanup must be free of
NaN, since only cleanups are compared. -/
theorem build_inverts_inlining {d : Dialect} {cs : List Command}
    (hcs : WellFormedCommands d false cs) (hcleanups : EachCleanups FaithfulCleanup cs)
    (name : String) (argCount : UInt16) :
    Entry.build d ⟨name, argCount, Piece.pack (commandCode [] cs)⟩ =
      .ok (⟨programTrees cs, false⟩,
        { Fragment.start name none argCount with locals := declaredLocals cs }) :=
  build_commandCode hcs hcleanups name argCount

namespace Sample

/-- A call without arguments. -/
def closeFile : Command := .eval (.call "close_file" [])

/-- A return that the program itself precedes by the statement of the cleanup, and another one
inside a loop in a guarded block further in. -/
def readFile : List Command :=
  [.guarded
    [.branch (.read .pushLocal total) [closeFile, .ret (.call "fail" [.read .pushLocal total])]
      none,
    .guarded
      [.loop (.function "more")
        [.branch (.function "bad") [.exit] (some [.ret (.literal (.int16 0))])]]
      (some [.assign .variable .double total (.literal (.double (.ofInt 2))), closeFile]),
    .exit]
    (some [closeFile])]

end Sample

/-- The copies of the cleanups are dropped; the statement that the program itself put before a
return stays. -/
theorem build_inverts_inlining_readFile :
    Entry.build Version.legacy.dialect
        ⟨"gml_Script_read_file", 0, Piece.pack (commandCode [] Sample.readFile)⟩ =
      .ok (⟨.locals ["total"] :: commandTrees Sample.readFile, false⟩,
        { Fragment.start "gml_Script_read_file" none 0 with locals := ["total"] }) := by
  have hlocals : declaredLocals Sample.readFile = ["total"] := by decide
  have hwellFormed : WellFormedCommands Version.legacy.dialect false Sample.readFile := by
    simp only [Sample.readFile, Sample.closeFile, Sample.total, WellFormedCommands,
      Command.WellFormed, WellFormedOptional, Term.WellFormed, Place.WellFormed,
      WellFormedTerms, Place.Writable, Place.Readable, and_true, true_and]
    decide
  have hnumber : (Double.ofInt 2).isNaN = false := by decide
  have hcleanups : EachCleanups FaithfulCleanup Sample.readFile := by
    simp [hnumber, Sample.readFile, Sample.closeFile, Sample.total, EachCleanups,
      Command.EachCleanup, EachOptional, FaithfulCleanup, ReturnlessCommands,
      Command.Returnless, NotNaNCommands, Command.NotNaN, Term.NotNaN, NotNaNTerms,
      Place.NotNaN, Literal.NotNaN]
  have hbuild := build_inverts_inlining hwellFormed hcleanups "gml_Script_read_file" 0
  rwa [programTrees, hlocals] at hbuild

end GmlDecompiler

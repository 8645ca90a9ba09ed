import GmlDecompiler.Proofs.Building.Parts
import GmlDecompiler.Proofs.Naming.Arguments
import GmlDecompiler.Proofs.Naming.Contents

/-!
# Routines as they are built

Building names no argument and finds no default value: every routine in a tree that was built is
as good as new. A tree inherits this from its parts.
-/

namespace GmlDecompiler

/-- No argument has a name yet, no struct argument is known, and not too many arguments are
declared. -/
structure Fragment.IsNew (f : Fragment) : Prop where
  naming : f.naming = {}
  structArguments : f.structArguments = none
  small : f.maxArgument.toInt < Fragment.indexLimit

/-- The routine has not been tidied. -/
structure Routine.IsNew (r : Routine) : Prop where
  fragment : r.fragment.IsNew
  defaults : r.defaults = []

/-- No routine in the tree has been tidied. -/
def Contents.IsNew (k : Contents) : Prop :=
  ∀ r ∈ k.routines, r.IsNew

namespace Contents.IsNew

/-- An empty tree has no routine that could have been tidied. -/
theorem empty : ({} : Contents).IsNew := by
  simp [Contents.IsNew]

/-- What is put together is new exactly if both parts are. -/
theorem append_iff {k l : Contents} : (k ++ l).IsNew ↔ k.IsNew ∧ l.IsNew := by
  simp [Contents.IsNew, or_imp, forall_and]

/-- Expressions are new exactly if each of them is. -/
theorem exprs_iff {es : List Expr} :
    (exprContents es).IsNew ↔ ∀ e ∈ es, e.contents.IsNew := by
  simp only [Contents.IsNew, mem_routines_exprContents]
  exact ⟨fun h e he r hr => h r ⟨e, he, hr⟩, fun h r ⟨e, he, hr⟩ => h e he r hr⟩

/-- Statements are new exactly if each of them is. -/
theorem stmts_iff {ss : List Stmt} :
    (stmtContents ss).IsNew ↔ ∀ s ∈ ss, s.contents.IsNew := by
  simp only [Contents.IsNew, mem_routines_stmtContents]
  exact ⟨fun h s hs r hr => h r ⟨s, hs, hr⟩, fun h r ⟨s, hs, hr⟩ => h s hs r hr⟩

/-- Being in a scope of their own does not matter to the routines of a tree. -/
theorem enclosed_iff {k : Contents} : k.enclosed.IsNew ↔ k.IsNew :=
  Iff.rfl

end Contents.IsNew

/-- Expressions that may be missing are new exactly if each of them is. -/
theorem optionalExprs_isNew_iff {es : Option (List Expr)} :
    (optionalExprsContents es).IsNew ↔ ∀ e ∈ es.getD [], e.contents.IsNew := by
  cases es with
  | none => simp [optionalExprsContents, Contents.IsNew.empty]
  | some es => exact Contents.IsNew.exprs_iff

/-- An expression contains what its parts contain, and the routine in it. -/
theorem Expr.isNew_iff (e : Expr) :
    e.contents.IsNew ↔ (∀ part ∈ e.shape.parts, part.contents.IsNew) ∧
      (∀ r, e.shape = .routine r → r.IsNew ∧ r.contents.IsNew) ∧
      ∀ r, e.shape = .struct r → r.innerContents.IsNew := by
  rw [Expr.contents_eq]
  cases e.shape with
  | access a =>
    have hself : Contents.IsNew ⟨[a], []⟩ := List.forall_mem_nil _
    simp [Shape.contents, Shape.parts, Access.contents_eq, Contents.IsNew.append_iff,
      optionalExprs_isNew_iff, hself]
  | unary | binary | call | callValue | construct | chain =>
    simp [Shape.contents, Shape.parts, Contents.IsNew.append_iff, Contents.IsNew.exprs_iff,
      and_assoc]
  | routine r => simp [Shape.contents, Shape.parts, Contents.IsNew]
  | struct r =>
    simp [Shape.contents, Shape.parts, Contents.IsNew.append_iff, Routine.valueContents_eq,
      optionalExprs_isNew_iff, Contents.IsNew.enclosed_iff]
  | int16 | int32 | int64 | double | string | boolean | keyword | function | constant =>
    simp [Shape.contents, Shape.parts, Contents.IsNew.empty]

/-- A block that may be missing is new if its statements are. -/
theorem optionalBlock_isNew {block : Option Block}
    (hblock : ∀ s ∈ (block.map (·.statements)).getD [], s.contents.IsNew) :
    (optionalBlockContents block).IsNew := by
  cases block with
  | none => exact .empty
  | some block =>
    rw [optionalBlockContents, block.contents_eq]
    exact Contents.IsNew.stmts_iff.mpr hblock

/-- A statement contains no more than its parts contain, and the routine that it declares. -/
theorem Stmt.isNew_of_parts {s : Stmt} (hexprs : ∀ e ∈ s.exprs, e.contents.IsNew)
    (hinner : ∀ t ∈ s.inner, t.contents.IsNew)
    (hroutine : ∀ r, s.routine? = some r → r.IsNew ∧ r.contents.IsNew) : s.contents.IsNew := by
  cases s with
  | block body =>
    rw [Stmt.contents, body.contents_eq]
    exact Contents.IsNew.stmts_iff.mpr hinner
  | eval value | ret value => exact hexprs value List.mem_cons_self
  | assign target value | static target value =>
    obtain ⟨htarget, hvalue⟩ := List.forall_mem_cons.mp hexprs
    exact Contents.IsNew.append_iff.mpr ⟨htarget, hvalue value List.mem_cons_self⟩
  | branch condition thenPart elsePart =>
    obtain ⟨hthen, helse⟩ := List.forall_mem_append.mp hinner
    have hcondition := hexprs condition List.mem_cons_self
    rw [Stmt.contents, thenPart.contents_eq]
    exact Contents.IsNew.append_iff.mpr ⟨Contents.IsNew.append_iff.mpr
      ⟨hcondition, Contents.IsNew.stmts_iff.mpr hthen⟩, optionalBlock_isNew helse⟩
  | loop condition body =>
    have hcondition := hexprs condition List.mem_cons_self
    rw [Stmt.contents, body.contents_eq]
    exact Contents.IsNew.append_iff.mpr ⟨hcondition, Contents.IsNew.stmts_iff.mpr hinner⟩
  | guarded body cleanup =>
    obtain ⟨hbody, hcleanup⟩ := List.forall_mem_append.mp hinner
    rw [Stmt.contents, body.contents_eq]
    exact Contents.IsNew.append_iff.mpr
      ⟨Contents.IsNew.stmts_iff.mpr hbody, optionalBlock_isNew hcleanup⟩
  | routine r =>
    obtain ⟨hnew, hcontents⟩ := hroutine r rfl
    exact List.forall_mem_cons.mpr ⟨hnew, hcontents⟩
  | exit | leave | again | locals | enum => exact .empty

/-- That no routine has been tidied is passed on by the parts of a tree. -/
theorem inherited_isNew :
    Inherited (·.contents.IsNew) (fun _ s => s.contents.IsNew)
      (fun r => r.IsNew ∧ r.contents.IsNew) (·.innerContents.IsNew) where
  expr_iff := Expr.isNew_iff
  literal_of_declared r values hr _ := by
    have hcontents := hr.2
    rw [r.contents_eq, Contents.IsNew.append_iff, r.innerContents_eq] at hcontents
    rw [Routine.innerContents_eq]
    exact hcontents.1
  stmt _ _ _ hexprs hinner hroutine := Stmt.isNew_of_parts hexprs hinner hroutine
  static _ s hs := by
    have hsame : s.toStatic.contents = s.contents := by cases s <;> rfl
    rw [hsame]
    exact hs

/-- Not too many arguments are declared. -/
theorem Fragment.maxArgument_start_lt (codeName : String) (name : Option String)
    (argCount : UInt16) :
    (Fragment.start codeName name argCount).maxArgument.toInt < Fragment.indexLimit := by
  have hcount := argCount.toNat_lt
  have hvalue : (Int32.ofNat argCount.toNat).toInt = argCount.toNat :=
    Int32.toInt_ofNat_of_lt (by omega)
  rw [start, Int32.toInt_sub, hvalue, show Int32.toInt 1 = 1 from rfl,
    Int.bmod_eq_of_le (by omega) (by omega), indexLimit]
  omega

/-- A routine that was built has not been tidied, and neither has any routine in it. -/
theorem buildRoutine_isNew {dialect : Dialect} (body : List Node) :
    ∀ header r, buildRoutine (Machine.step dialect) header body = .ok r →
      r.IsNew ∧ r.contents.IsNew := by
  induction body using fragments_induction with
  | step body ih =>
    intro header r hrun
    obtain ⟨rest, hstatements, hrest, hf⟩ :=
      inherited_isNew.buildRoutine_keeps (fun p hp x hx => ih p hp p.1 x hx) hrun
    have hdefaults := defaults_buildRoutine hrun
    have hsmall : r.fragment.maxArgument.toInt < Fragment.indexLimit := by
      rw [hf.maxArgument]
      exact Fragment.maxArgument_start_lt _ _ _
    have hparent : (optionalExprContents r.fragment.parentCall).IsNew := by
      cases hcall : r.fragment.parentCall with
      | none => exact .empty
      | some call => exact hf.parentCall call hcall
    have hbody : r.body.contents.IsNew := by
      rw [Block.contents_eq, hstatements, Contents.IsNew.stmts_iff]
      refine List.forall_mem_append.mpr ⟨fun s hs => ?_, hrest⟩
      rw [eq_of_mem_localsDeclaration hs]
      exact .empty
    refine ⟨⟨⟨hf.naming, hf.structArguments, hsmall⟩, hdefaults⟩, ?_⟩
    rw [Routine.contents_eq, Routine.innerContents_eq, hdefaults]
    exact Contents.IsNew.append_iff.mpr
      ⟨Contents.IsNew.append_iff.mpr ⟨hbody, hparent⟩, .empty⟩

/-- No routine in the tree of an entry has been tidied. -/
theorem Entry.build_isNew {d : Dialect} {entry : Entry} {block : Block} {f : Fragment}
    (hbuild : entry.build d = .ok (block, f)) : f.IsNew ∧ block.contents.IsNew := by
  obtain ⟨r, hrun, hstatements, rfl⟩ := entry.build_eq_ok hbuild
  obtain ⟨hnew, hcontents⟩ := buildRoutine_isNew entry.body entry.header r hrun
  refine ⟨hnew.fragment, ?_⟩
  rw [r.contents_eq, r.innerContents_eq, r.body.contents_eq, hstatements,
    Contents.IsNew.append_iff, Contents.IsNew.append_iff] at hcontents
  rw [block.contents_eq]
  exact hcontents.1.1

end GmlDecompiler

import GmlDecompiler.Program
import GmlDecompiler.Proofs.Layout.Outline
import GmlDecompiler.Proofs.Naming.Parameters

/-!
# Tidying an outline

Tidying marks declarations for empty lines but does not look at the marks. So it comes to the same
whether a tree is tidied and then outlined, or outlined and then tidied with settings that ask for
no empty lines. The visible text of an entry is that of the outline, which does not depend on any
setting for the layout.
-/

namespace GmlDecompiler

/-- The settings with nothing chosen about the layout. -/
def Settings.plain (s : Settings) : Settings where
  argumentPattern := s.argumentPattern
  foldDefaults := s.foldDefaults
  enumsFirst := s.enumsFirst
  blankAroundEnums := false
  blankAroundRoutines := false

/-- The configuration with nothing chosen about the layout. -/
def Config.plain (c : Config) : Config :=
  { c with settings := c.settings.plain }

section Expressions

variable (c : Config)

/-- An outline is an integer literal exactly if the expression is. -/
theorem Expr.integer?_outline (e : Expr) : e.outline.integer? = e.integer? := by
  unfold integer?
  rw [shape_outline]
  cases e.shape <;> rfl

/-- An outline binds as tightly as the expression. -/
theorem Expr.strength?_outline (e : Expr) : e.outline.strength? = e.strength? := by
  unfold strength?
  rw [shape_outline]
  cases e.shape <;> rfl

/-- Parentheses are part of the outline. -/
theorem Expr.outline_groupIf (condition : Bool) (e : Expr) :
    (e.groupIf condition).outline = e.outline.groupIf condition := by
  cases e
  rfl

/-- The outline of an access reads the argument that the access reads. -/
theorem Access.argumentIndex?_outline (a : Access) :
    a.outline.argumentIndex? = a.argumentIndex? := by
  obtain ⟨target, reference, owner, indices, regularPush, argumentName⟩ := a
  unfold argumentIndex?
  cases indices with
  | none => rfl
  | some indices =>
    match indices with
    | [] | _ :: _ :: _ => rfl
    | [index] =>
      simp only [Access.outline, outlineOptionalExprs, outlineExprs, index.integer?_outline]

/-- The outline of an access is the constant `undefined` exactly if the access is. -/
theorem Access.isUndefined_outline (a : Access) : a.outline.isUndefined = a.isUndefined := by
  obtain ⟨target, reference, owner, indices, regularPush, argumentName⟩ := a
  cases indices <;> rfl

/-- What an integer reads as has nothing to leave out. -/
theorem Reading.outline_of_resolve? {enums : List EnumDef} {reading : Reading} {value : Int64}
    {shape : Shape} (hshape : reading.resolve? enums value = some shape) :
    shape.outline = shape := by
  cases reading <;> obtain ⟨x, -, rfl⟩ := Option.map_eq_some_iff.mp hshape <;> rfl

/-- What is read in the place of an integer, outlined, is what is read in the place of its
outline. -/
theorem Reading.outline_apply (enums : List EnumDef) (reading : Reading) (e : Expr) :
    (reading.apply enums e).outline = reading.apply enums e.outline := by
  unfold apply
  rw [e.integer?_outline]
  split
  · rename_i shape hshape
    obtain ⟨value, -, hvalue⟩ := Option.bind_eq_some_iff.mp hshape
    cases e
    simp only [Expr.outline, outline_of_resolve? hvalue]
  · rfl

/-- Each argument of a call is read before or after the outlines are made. -/
theorem Readings.outline_applyAll (enums : List EnumDef) (readings : List (Option Reading))
    (es : List Expr) :
    (applyAll enums readings es).map Expr.outline =
      applyAll enums readings (es.map Expr.outline) := by
  induction readings generalizing es with
  | nil => rfl
  | cons reading readings ih =>
    cases es with
    | nil => cases reading <;> rfl
    | cons e es =>
      cases reading with
      | none => simp only [List.map_cons, applyAll, ih]
      | some reading => simp only [List.map_cons, applyAll, ih, reading.outline_apply]

/-- The arguments of a call of a function are read before or after the outlines are made. -/
theorem Readings.outline_readArguments (r : Readings) (enums : List EnumDef) (function : String)
    (es : List Expr) :
    (r.readArguments enums function es).map Expr.outline =
      r.readArguments enums function (es.map Expr.outline) := by
  unfold readArguments
  split
  · exact outline_applyAll enums _ es
  · rfl

namespace Config

/-- An operand beside a variable is read in the same way in an outline. -/
theorem readBeside_plain (beside e : Expr) :
    c.plain.readBeside beside.outline e.outline = (c.readBeside beside e).map Expr.outline := by
  unfold readBeside
  rw [beside.access?_outline]
  cases beside.access? with
  | none => rfl
  | some a =>
    simp only [Option.map_some, Option.bind_some, a.target_outline, Option.map_map]
    exact congrArg (Option.map · _) (funext fun reading => (reading.outline_apply c.enums e).symm)

/-- An operand that stays if there is no reading stays in an outline as well. -/
theorem readBeside_getD_plain (beside e : Expr) :
    (c.plain.readBeside beside.outline e.outline).getD e.outline =
      ((c.readBeside beside e).getD e).outline := by
  rw [readBeside_plain]
  cases c.readBeside beside e <;> rfl

/-- Both operands of a comparison are read in the same way in an outline. -/
theorem readCompared_plain (left right : Expr) :
    c.plain.readCompared left.outline right.outline =
      Prod.map Expr.outline Expr.outline (c.readCompared left right) := by
  unfold readCompared
  rw [c.readBeside_getD_plain, c.readBeside_plain]
  cases c.readBeside left right <;> rfl

/-- Operands get the same parentheses in an outline. -/
theorem groupOperands_outline (operator : Instruction) (left right : Expr) :
    groupOperands operator left.outline right.outline =
      Prod.map Expr.outline Expr.outline (groupOperands operator left right) := by
  simp only [groupOperands, Prod.map, Expr.outline_groupIf, Expr.strength?_outline]

/-- Operands are read and get parentheses in the same way in an outline. -/
theorem operands_plain (operator : Instruction) (left right : Expr) :
    c.plain.operands operator left.outline right.outline =
      Prod.map Expr.outline Expr.outline (c.operands operator left right) := by
  unfold operands
  by_cases hcompare : operator.opcode = .compare
  · rw [if_pos hcompare, if_pos hcompare, c.readCompared_plain]
    exact groupOperands_outline operator _ _
  · rw [if_neg hcompare, if_neg hcompare]
    exact groupOperands_outline operator left right

/-- A condition of a chain gets parentheses in an outline exactly if it does in the tree. -/
theorem groupCondition_outline (e : Expr) :
    groupCondition e.outline = (groupCondition e).outline := by
  unfold groupCondition
  rw [e.shape_outline]
  cases e.shape with
  | chain => exact (e.outline_groupIf true).symm
  | int16 | int32 | int64 | double | string | boolean | keyword | function | constant | access
  | unary | binary | call | callValue | construct | routine | struct => rfl

/-- An assignment becomes a declaration in an outline exactly if it does in the tree. -/
theorem assign_plain (target value : Expr) :
    c.plain.assign target.outline value.outline = (c.assign target value).outline := by
  have htarget : target.outline.access?.map (·.target.name) =
      target.access?.map (·.target.name) := by
    rw [target.access?_outline, Option.map_map]
    exact congrArg (Option.map · _) (funext fun a => congrArg VarRef.name a.target_outline)
  unfold assign
  dsimp only
  rw [c.readBeside_getD_plain, Expr.shape_outline, htarget]
  cases ((c.readBeside target value).getD value).shape with
  | routine r =>
    have hname : r.outline.name = r.name := by
      cases r
      rfl
    dsimp only [Shape.outline]
    rw [hname]
    split <;> rfl
  | int16 | int32 | int64 | double | string | boolean | keyword | function | constant | access
  | unary | binary | call | callValue | construct | chain | struct => rfl

end Config

end Expressions

section Routines

variable (c : Config)

/-- The outlines of default values, one by one. -/
theorem outlineDefaults_eq (defaults : List (Nat × Expr)) :
    outlineDefaults defaults = defaults.map fun p => (p.1, p.2.outline) := by
  induction defaults with
  | nil => rfl
  | cons p defaults ih => rw [outlineDefaults, ih, List.map_cons]

/-- The outline of a fragment has the outlines of the values of the struct arguments. -/
theorem Fragment.structArguments_outline (f : Fragment) :
    f.outline.structArguments = outlineOptionalExprs f.structArguments := by
  cases f
  rfl

/-- Values may be given to a fragment before or after its outline is made. -/
theorem Fragment.outline_withValues (f : Fragment) (values : Option (List Expr)) :
    ({ f with structArguments := values } : Fragment).outline =
      { f.outline with structArguments := outlineOptionalExprs values } := by
  cases f
  rfl

/-- The outline of a fragment is of a struct literal exactly if the fragment is. -/
theorem Fragment.isStruct_outline (f : Fragment) : f.outline.isStruct = f.isStruct := by
  cases f
  rfl

/-- An argument may be noted before or after the outline is made. -/
theorem Fragment.outline_noteArgument (f : Fragment) (index : Nat) :
    (f.noteArgument index).outline = f.outline.noteArgument index := by
  cases f
  rfl

/-- The outline of a fragment has as many parameters as the fragment. -/
theorem Fragment.parameterCount_outline (f : Fragment) :
    f.outline.parameterCount = f.parameterCount := by
  cases f
  rfl

/-- An argument gets the same name. -/
theorem Config.nameArgument_plain (f : Fragment) (index : Nat) :
    c.plain.nameArgument f.outline index =
      Prod.map id Fragment.outline (c.nameArgument f index) := by
  have hname : f.outline.nameArgument c.argumentNames c.settings.plain index =
      Prod.map id Fragment.outline (f.nameArgument c.argumentNames c.settings index) := by
    cases f
    rfl
  unfold nameArgument
  by_cases hnamed : c.dialect.namedArguments = true
  · have hplain : c.plain.dialect.namedArguments = true := hnamed
    rw [if_pos hnamed, if_pos hplain]
    exact congrArg (fun p => (some p.1, p.2)) hname
  · have hplain : ¬ c.plain.dialect.namedArguments = true := hnamed
    rw [if_neg hnamed, if_neg hplain]
    rfl

/-- The parameters of an outline are those of the fragment: names are not part of the layout. -/
theorem Config.parameters_plain (count first : Nat) (f : Fragment) :
    c.plain.parameters count first f.outline =
      Prod.map id Fragment.outline (c.parameters count first f) := by
  induction count generalizing first f with
  | zero => rfl
  | succ count ih =>
    simp only [parameters, c.nameArgument_plain, Prod.map, ih, id]

/-- An outline declares local variables exactly if the statement does. -/
theorem Stmt.isLocals_outline (s : Stmt) : s.outline.isLocals = s.isLocals := by
  cases s <;> rfl

/-- A check for a missing argument stays one. -/
theorem Stmt.defaultCheck?_outline (s : Stmt) :
    s.outline.defaultCheck? = s.defaultCheck?.map fun p => (p.1, p.2.outline) := by
  cases s with
  | branch condition thenPart elsePart =>
    obtain ⟨statements, braced⟩ := thenPart
    rcases statements with _ | ⟨t, _ | ⟨u, statements⟩⟩
    · rfl
    · cases t with
      | assign target value =>
        cases elsePart with
        | none =>
          have htarget : target.outline.access?.bind Access.argumentIndex? =
              target.access?.bind Access.argumentIndex? := by
            rw [target.access?_outline, Option.bind_map]
            exact congrArg _ (funext Access.argumentIndex?_outline)
          simp only [outline, Block.outline, outlineStmts, outlineOptionalBlock, defaultCheck?,
            condition.shape_outline]
          cases condition.shape with
          | binary operator left right =>
            simp only [Shape.outline, left.access?_outline, right.access?_outline, htarget]
            cases left.access? with
            | none => rfl
            | some argument =>
              cases right.access? with
              | none => rfl
              | some undefined =>
                simp only [Option.map_some, argument.argumentIndex?_outline,
                  undefined.isUndefined_outline]
                cases argument.argumentIndex? with
                | none => rfl
                | some index =>
                  simp only [Option.bind_some]
                  split <;> rfl
          | int16 | int32 | int64 | double | string | boolean | keyword | function | constant
          | access | unary | call | callValue | construct | chain | routine | struct => rfl
        | some => rfl
      | block | eval | static | ret | exit | leave | again | branch | loop | guarded | locals
      | routine | enum => rfl
    · cases t <;> rfl
  | block | eval | assign | static | ret | exit | leave | again | loop | guarded | locals | routine
  | enum => rfl

/-- A default value may be put in its place before or after the outlines are made. -/
theorem outlineDefaults_putDefault (index : Nat) (value : Expr) (defaults : List (Nat × Expr)) :
    outlineDefaults (putDefault index value defaults) =
      putDefault index value.outline (outlineDefaults defaults) := by
  induction defaults with
  | nil => rfl
  | cons p defaults ih =>
    obtain ⟨i, e⟩ := p
    simp only [putDefault, outlineDefaults]
    split
    · rfl
    · split
      · rfl
      · rw [outlineDefaults, ih]

/-- The same checks are folded in the outlines of statements. The induction follows the statements,
since what was folded before decides about the next one. -/
theorem foldChecks_outline (last : Option Nat) (defaults : List (Nat × Expr)) (ss : List Stmt) :
    foldChecks last (outlineDefaults defaults) (ss.map Stmt.outline) =
      Prod.map outlineDefaults (List.map Stmt.outline) (foldChecks last defaults ss) := by
  induction ss generalizing last defaults with
  | nil => rfl
  | cons s rest ih =>
    have hknown (index : Nat) :
        ((outlineDefaults defaults).lookup index).isSome = (defaults.lookup index).isSome := by
      rw [outlineDefaults_eq, lookup_map_snd, Option.isSome_map]
    rw [List.map_cons, foldChecks, foldChecks, s.defaultCheck?_outline]
    cases s.defaultCheck? with
    | none => rfl
    | some check =>
      dsimp only [Option.map_some]
      rw [hknown]
      split
      · rfl
      · rw [← outlineDefaults_putDefault, ih]

/-- Default values may be folded before or after the outline is made. -/
theorem Routine.outline_foldDefaults (r : Routine) :
    r.foldDefaults.outline = r.outline.foldDefaults := by
  obtain ⟨name, isConstructor, ⟨statements, braced⟩, fragment, defaults, parameters, _, _⟩ := r
  have hlocals : Stmt.isLocals ∘ Stmt.outline = Stmt.isLocals := funext Stmt.isLocals_outline
  simp only [foldDefaults, outline, Block.outline, outlineStmts_eq, List.takeWhile_map,
    List.dropWhile_map, hlocals, foldChecks_outline, Prod.map, List.map_append]

/-- The outline of a routine has the outline of its fragment. -/
theorem Routine.fragment_outline (r : Routine) : r.outline.fragment = r.fragment.outline := by
  cases r
  rfl

/-- The settings ask for default values in the outline exactly if they do in the tree. -/
theorem Config.foldRoutine_plain (r : Routine) :
    c.plain.foldRoutine r.outline = (c.foldRoutine r).outline := by
  unfold foldRoutine
  rw [← Routine.outline_foldDefaults]
  exact (apply_ite Routine.outline _ _ _).symm

/-- The values of the struct arguments in the outline of a routine. -/
theorem Routine.structArguments_outline (r : Routine) :
    r.outline.fragment.structArguments = outlineOptionalExprs r.fragment.structArguments := by
  rw [r.fragment_outline, Fragment.structArguments_outline]

/-- A routine whose parts are outlined is finished in the same way. -/
theorem Config.finishRoutine_plain (r : Routine) :
    c.plain.finishRoutine r.outline = (c.finishRoutine r).outline := by
  have hsame : r.outline.fragment.isStruct = r.fragment.isStruct := by
    rw [r.fragment_outline, Fragment.isStruct_outline]
  cases hstruct : r.fragment.isStruct with
  | true =>
    rw [c.finishRoutine_of_isStruct hstruct, finishRoutine_of_isStruct _ (hsame.trans hstruct)]
  | false =>
    rw [c.finishRoutine_eq hstruct, finishRoutine_eq _ (hsame.trans hstruct), r.fragment_outline,
      r.fragment.parameterCount_outline, c.parameters_plain, c.foldRoutine_plain]
    generalize c.foldRoutine r = folded
    cases folded
    rfl

end Routines

/-- Of two computations the second does to outlines what the first does to trees: inside the
outlines of some scopes it gives the outline of what the first gives, or the same fault. -/
def Outlines {α : Type} (view : α → α) (x y : Tidying α) : Prop :=
  ∀ scopes, Mirrors (Prod.map view (List.map Fragment.outline)) (x scopes)
    (y (scopes.map Fragment.outline))

namespace Outlines

variable {α β : Type} {view : α → α} {view' : β → β}

/-- Giving a value and giving its outline. -/
theorem pure {a b : α} (hb : b = view a) : Outlines view (pure a) (pure b) :=
  fun scopes => .ok (congrArg (·, scopes.map Fragment.outline) hb)

/-- Computations in a row come to the same on outlines if each one does. -/
theorem bind {x y : Tidying α} {k l : α → Tidying β} (hx : Outlines view x y)
    (hk : ∀ a, Outlines view' (k a) (l (view a))) : Outlines view' (x >>= k) (y >>= l) :=
  fun scopes => (hx scopes).bind fun (a, after) => hk a after

/-- Entering a scope and entering its outline. -/
theorem enter (f : Fragment) : Outlines id (Tidying.enter f) (Tidying.enter f.outline) :=
  fun _ => .ok rfl

/-- Leaving a scope gives its outline, or the same fault if there is none. -/
theorem leave : Outlines Fragment.outline Tidying.leave Tidying.leave := by
  intro scopes
  cases scopes with
  | nil => exact .error _
  | cons f scopes => exact .ok rfl

end Outlines

section Scopes

variable (c : Config)

/-- The value that stands for an argument, looked up in the outline of the scope, is the outline of
the value. -/
theorem Scopes.structArgument?_outline (scopes : Scopes) (index : Nat) :
    Scopes.structArgument? (scopes.map Fragment.outline) index =
      (scopes.structArgument? index).map Expr.outline := by
  unfold structArgument?
  cases scopes with
  | nil => rfl
  | cons f scopes =>
    simp only [List.map_cons, List.head?_cons, Option.bind_some, f.structArguments_outline]
    cases f.structArguments with
    | none => rfl
    | some values =>
      simp only [outlineOptionalExprs, outlineExprs_eq, Option.bind_some, List.getElem?_map]

/-- The same values are put in the place of variables in an outline. -/
theorem Shape.substitute?_outline (scopes : Scopes) (shape : Shape) :
    shape.outline.substitute? (scopes.map Fragment.outline) =
      (shape.substitute? scopes).map Expr.outline := by
  cases shape with
  | access a =>
    simp only [outline, substitute?, a.argumentIndex?_outline, Scopes.structArgument?_outline,
      Option.map_bind]
    rfl
  | int16 | int32 | int64 | double | string | boolean | keyword | function | constant | unary
  | binary | call | callValue | construct | chain | routine | struct => rfl

/-- An argument that is read is noted in the same way. -/
theorem Tidying.noteArgument_outline (a : Access) (index : Nat) :
    Outlines Access.outline (noteArgument c a index) (noteArgument c.plain a.outline index) := by
  intro scopes
  match scopes with
  | [] => exact .error _
  | [f] => exact .ok (by rw [← f.outline_noteArgument]; rfl)
  | f :: outer :: scopes =>
    simp only [noteArgument, List.map_cons, ← f.outline_noteArgument, c.nameArgument_plain]
    refine .ok ?_
    cases a
    rfl

/-- An access is finished in the same way in an outline: it notes the same argument and shows the
same name. -/
theorem Config.finishAccess_outline (a : Access) :
    Outlines Access.outline (c.finishAccess a) (c.plain.finishAccess a.outline) := by
  unfold finishAccess
  rw [a.argumentIndex?_outline]
  split
  · exact .pure rfl
  · exact Tidying.noteArgument_outline c a _

end Scopes

mutual

/-- The outline of an expression is tidied as the expression is. -/
theorem Expr.tidy_outline (c : Config) (e : Expr) :
    Outlines Expr.outline (e.tidy c) (e.outline.tidy c.plain) :=
  match e with
  | ⟨shape, duplicated, grouped, slot⟩ => by
    intro scopes
    have hshape : Outlines Expr.outline
        (shape.tidy c >>= fun shape => pure ⟨shape, duplicated, grouped, slot⟩)
        (shape.outline.tidy c.plain >>= fun shape => pure ⟨shape, duplicated, grouped, slot⟩) :=
      (shape.tidy_outline c).bind fun _ => .pure rfl
    simp only [Expr.outline, Expr.tidy, bind, StateT.bind, get_apply, Except.bind]
    -- a value that is put in the place of an argument is not tidied again
    rw [shape.substitute?_outline scopes]
    cases shape.substitute? scopes with
    | some argument => exact .ok rfl
    | none => exact hshape scopes
termination_by structural e

/-- The outline of a shape is tidied as the shape is. -/
theorem Shape.tidy_outline (c : Config) (shape : Shape) :
    Outlines Shape.outline (shape.tidy c) (shape.outline.tidy c.plain) :=
  match shape with
  | .int16 _ | .int32 _ | .int64 _ | .double _ | .string _ | .boolean _ | .keyword _
  | .function _ | .constant _ => .pure rfl
  | .access a => (a.tidy_outline c).bind fun _ => .pure rfl
  | .unary operator operand => by
    refine (operand.tidy_outline c).bind fun operand => .pure ?_
    rw [Shape.outline, operand.outline_groupIf, operand.strength?_outline]
  | .binary operator left right => by
    refine (left.tidy_outline c).bind fun left => ?_
    refine (right.tidy_outline c).bind fun right => ?_
    have hoperands := c.operands_plain operator left right
    exact .pure (congrArg (fun p => Shape.binary operator p.1 p.2) hoperands)
  | .call function arguments => by
    refine (tidyExprs_outline c arguments).bind fun arguments => .pure ?_
    rw [Shape.outline, outlineExprs_eq, outlineExprs_eq, Readings.outline_readArguments]
    rfl
  | .callValue callee self arguments => by
    refine (callee.tidy_outline c).bind fun callee => ?_
    refine (self.tidy_outline c).bind fun self => ?_
    exact (tidyExprs_outline c arguments).bind fun arguments => .pure rfl
  | .construct callee arguments => by
    refine (callee.tidy_outline c).bind fun callee => ?_
    exact (tidyExprs_outline c arguments).bind fun arguments => .pure rfl
  | .chain logic conditions => by
    refine (tidyExprs_outline c conditions).bind fun conditions => .pure ?_
    rw [Shape.outline, outlineExprs_eq, outlineExprs_eq, List.map_map, List.map_map]
    have hgroup : Config.groupCondition ∘ Expr.outline = Expr.outline ∘ Config.groupCondition :=
      funext Config.groupCondition_outline
    rw [hgroup]
  | .routine routine => by
    rw [Shape.outline, Shape.tidy, Shape.tidy, routine.structArguments_outline]
    exact (routine.tidy_outline c _).bind fun _ => .pure rfl
  | .struct routine => by
    refine (routine.tidyArguments_outline c).bind fun arguments => ?_
    exact (routine.tidy_outline c arguments).bind fun _ => .pure rfl
termination_by structural shape

/-- The outline of an access is tidied as the access is. -/
theorem Access.tidy_outline (c : Config) (a : Access) :
    Outlines Access.outline (a.tidy c) (a.outline.tidy c.plain) :=
  match a with
  | ⟨target, reference, owner, indices, regularPush, argumentName⟩ => by
    refine (owner.tidy_outline c).bind fun owner => ?_
    refine (tidyOptionalExprs_outline c indices).bind fun indices => ?_
    exact c.finishAccess_outline ⟨target, reference, owner, indices, regularPush, argumentName⟩
termination_by structural a

/-- The outlines of expressions are tidied as the expressions are, one after another. -/
theorem tidyExprs_outline (c : Config) (es : List Expr) :
    Outlines outlineExprs (tidyExprs c es) (tidyExprs c.plain (outlineExprs es)) :=
  match es with
  | [] => .pure rfl
  | e :: es => by
    refine (e.tidy_outline c).bind fun first => ?_
    refine (tidyExprs_outline c es).bind fun rest => ?_
    exact .pure rfl
termination_by structural es

/-- The outlines of expressions that may be missing are tidied as the expressions are. -/
theorem tidyOptionalExprs_outline (c : Config) (es : Option (List Expr)) :
    Outlines outlineOptionalExprs (tidyOptionalExprs c es)
      (tidyOptionalExprs c.plain (outlineOptionalExprs es)) :=
  match es with
  | none => .pure rfl
  | some es => (tidyExprs_outline c es).bind fun _ => .pure rfl
termination_by structural es

/-- The outline of an expression that may be missing is tidied as the expression is. -/
theorem tidyOptionalExpr_outline (c : Config) (e : Option Expr) :
    Outlines outlineOptionalExpr (tidyOptionalExpr c e)
      (tidyOptionalExpr c.plain (outlineOptionalExpr e)) :=
  match e with
  | none => .pure rfl
  | some e => (e.tidy_outline c).bind fun _ => .pure rfl
termination_by structural e

/-- The outline of a statement is tidied as the statement is. -/
theorem Stmt.tidy_outline (c : Config) (s : Stmt) :
    Outlines Stmt.outline (s.tidy c) (s.outline.tidy c.plain) := by
  match s with
  | .block block =>
    refine (block.tidy_outline c).bind fun tidied => ?_
    exact .pure rfl
  | .eval value =>
    refine (value.tidy_outline c).bind fun tidied => ?_
    exact .pure rfl
  | .assign target value =>
    refine (target.tidy_outline c).bind fun target => ?_
    refine (value.tidy_outline c).bind fun value => ?_
    exact .pure (c.assign_plain target value)
  | .static target value =>
    refine (target.tidy_outline c).bind fun target => ?_
    refine (value.tidy_outline c).bind fun value => ?_
    exact .pure rfl
  | .ret value =>
    refine (value.tidy_outline c).bind fun tidied => ?_
    exact .pure rfl
  | .exit | .leave | .again | .locals _ => exact .pure rfl
  | .branch condition thenPart elsePart =>
    refine (condition.tidy_outline c).bind fun condition => ?_
    refine (thenPart.tidy_outline c).bind fun thenPart => ?_
    refine (tidyOptionalBlock_outline c elsePart).bind fun elsePart => ?_
    exact .pure rfl
  | .loop condition body =>
    refine (condition.tidy_outline c).bind fun condition => ?_
    refine (body.tidy_outline c).bind fun body => ?_
    exact .pure rfl
  | .guarded body cleanup =>
    refine (body.tidy_outline c).bind fun body => ?_
    refine (tidyOptionalBlock_outline c cleanup).bind fun cleanup => ?_
    exact .pure rfl
  | .routine routine =>
    rw [Stmt.outline, Stmt.tidy, Stmt.tidy, routine.structArguments_outline]
    refine (routine.tidy_outline c _).bind fun tidied => ?_
    exact .pure rfl
  | .enum _ => exact .pure rfl
termination_by structural s

/-- The outline of a block is tidied as the block is. -/
theorem Block.tidy_outline (c : Config) (block : Block) :
    Outlines Block.outline (block.tidy c) (block.outline.tidy c.plain) :=
  match block with
  | ⟨statements, _⟩ => (tidyStmts_outline c statements).bind fun _ => .pure rfl
termination_by structural block

/-- The outline of a block that may be missing is tidied as the block is. -/
theorem tidyOptionalBlock_outline (c : Config) (block : Option Block) :
    Outlines outlineOptionalBlock (tidyOptionalBlock c block)
      (tidyOptionalBlock c.plain (outlineOptionalBlock block)) :=
  match block with
  | none => .pure rfl
  | some block => (block.tidy_outline c).bind fun _ => .pure rfl
termination_by structural block

/-- The outlines of statements are tidied as the statements are, one after another. -/
theorem tidyStmts_outline (c : Config) (ss : List Stmt) :
    Outlines outlineStmts (tidyStmts c ss) (tidyStmts c.plain (outlineStmts ss)) :=
  match ss with
  | [] => .pure rfl
  | s :: ss => by
    refine (s.tidy_outline c).bind fun first => ?_
    refine (tidyStmts_outline c ss).bind fun rest => ?_
    exact .pure rfl
termination_by structural ss

/-- The outline of a routine is tidied as the routine is, in the outline of its own scope. -/
theorem Routine.tidy_outline (c : Config) (r : Routine) (values : Option (List Expr)) :
    Outlines Routine.outline (r.tidy c values)
      (r.outline.tidy c.plain (outlineOptionalExprs values)) :=
  match r with
  | ⟨name, isConstructor, body, fragment, defaults, parameters, blankBefore, blankAfter⟩ => by
    rw [Routine.outline, Routine.tidy, Routine.tidy, ← fragment.outline_withValues]
    refine (Outlines.enter _).bind fun _ => ?_
    refine (body.tidy_outline c).bind fun tidied => ?_
    refine (fragment.tidyParentCall_outline c).bind fun parentCall => ?_
    refine Outlines.leave.bind fun inner => .pure ?_
    -- the scope that is left is the fragment of the routine, with what its parts noted
    rw [← c.finishRoutine_plain]
    cases tidied
    cases inner
    rfl
termination_by structural r

/-- The outlines of the values of a struct literal are tidied as the values are. -/
theorem Routine.tidyArguments_outline (c : Config) (r : Routine) :
    Outlines outlineOptionalExprs (r.tidyArguments c)
      (r.outline.tidyArguments c.plain) :=
  match r with
  | ⟨_, _, _, fragment, _, _, _, _⟩ => fragment.tidyArguments_outline c
termination_by structural r

/-- The outlines of the values that a fragment holds are tidied as the values are. -/
theorem Fragment.tidyArguments_outline (c : Config) (f : Fragment) :
    Outlines outlineOptionalExprs (f.tidyArguments c)
      (f.outline.tidyArguments c.plain) :=
  match f with
  | ⟨_, _, _, _, _, _, _, _, _, _, _, values, _⟩ => tidyOptionalExprs_outline c values
termination_by structural f

/-- The outline of the call of the parent constructor is tidied as the call is. -/
theorem Fragment.tidyParentCall_outline (c : Config) (f : Fragment) :
    Outlines outlineOptionalExpr (f.tidyParentCall c) (f.outline.tidyParentCall c.plain) :=
  match f with
  | ⟨_, _, _, _, _, _, _, _, _, _, _, _, parentCall⟩ => tidyOptionalExpr_outline c parentCall
termination_by structural f

end

section Entries

variable (c : Config)

/-- Enums are declared at the same end of an outline as of the tree. -/
theorem Config.declareEnums_plain (root : Stmt) :
    Mirrors Stmt.outline (c.declareEnums root) (c.plain.declareEnums root.outline) := by
  cases root with
  | block block =>
    obtain ⟨statements, braced⟩ := block
    have hdeclarations :
        c.plain.enums.map (fun e => Stmt.enum (EnumDecl.tidy c.plain { definition := e })) =
          (c.enums.map fun e => Stmt.enum (EnumDecl.tidy c { definition := e })).map
            Stmt.outline := by
      rw [List.map_map]
      rfl
    refine .ok ?_
    have hfirst : c.plain.settings.enumsFirst = c.settings.enumsFirst := rfl
    simp only [Stmt.outline, Block.outline, outlineStmts_eq, hdeclarations, hfirst]
    cases c.settings.enumsFirst <;> simp
  | eval | assign | static | ret | exit | leave | again | branch | loop | guarded | locals | routine
  | enum => exact .error _

/-- The outline of an entry is tidied as the entry is. -/
theorem Config.tidyEntry_plain (root : Stmt) (f : Fragment) :
    Mirrors (Prod.map Stmt.outline Fragment.outline) (c.tidyEntry root f)
      (c.plain.tidyEntry root.outline f.outline) := by
  refine (root.tidy_outline c [f]).bind fun (tidied, scopes) => ?_
  refine (c.declareEnums_plain tidied).bind fun last => ?_
  cases scopes with
  | nil => exact .error _
  | cons g scopes => exact .ok rfl

/-- The outline of a tree in the outline of its fragment. -/
def Decompiled.outline (d : Decompiled) : Decompiled where
  root := d.root.outline
  fragment := d.fragment.outline

/-- The visible characters of the text of a tree in the scope of its fragment. -/
def Decompiled.ink (names : FunctionNames) (d : Decompiled) : Except Fault (List Char) := do
  let steps ← d.root.steps
  return GmlDecompiler.ink names [] (.enter d.fragment :: steps ++ [.leave])

/-- The visible characters of the text of an entry, found by way of its outline. -/
def Config.inkOf (c : Config) (entry : Entry) : Except Fault (List Char) := do
  let decompiled ← Except.mapError (Fault.entry entry.name) do
    let (block, f) ← entry.build c.dialect
    let (root, f) ← c.tidyEntry (Stmt.block block).outline f.outline
    return (⟨root, f⟩ : Decompiled)
  Except.mapError (Fault.entry entry.name) (decompiled.ink c.functionNames)

/-- Printing a tree writes the visible characters of its outline. -/
theorem Decompiled.print_ink (hindent : visible c.settings.indent = []) (d : Decompiled) :
    Mirrors visible (d.print c) (d.outline.ink c.functionNames) := by
  refine d.root.steps_outline.bind fun steps => .ok ?_
  have houtline : Step.enter d.outline.fragment :: outlineSteps steps ++ [.leave] =
      outlineSteps (.enter d.fragment :: steps ++ [.leave]) := by
    rw [outlineSteps_append]
    rfl
  have hrun := Printer.visible_run (p := .ofConfig c) hindent
    (.enter d.fragment :: steps ++ [.leave])
  rw [houtline, ink_outlineSteps, hrun]
  rfl

/-- The visible characters of the text of an entry do not depend on the layout. -/
theorem Config.decompileToText_ink (hindent : visible c.settings.indent = []) (entry : Entry) :
    Mirrors visible (c.decompileToText entry) (c.plain.inkOf entry) := by
  have hdecompile : Mirrors Decompiled.outline (c.decompile entry)
      (Except.mapError (Fault.entry entry.name) do
        let (block, f) ← entry.build c.plain.dialect
        let (root, f) ← c.plain.tidyEntry (Stmt.block block).outline f.outline
        return (⟨root, f⟩ : Decompiled)) := by
    refine Mirrors.mapError (Mirrors.bind (.refl _) fun (block, f) => ?_) _
    exact (c.tidyEntry_plain (.block block) f).bind fun _ => .ok rfl
  exact hdecompile.bind fun d => (d.print_ink c hindent).mapError _

end Entries

/-- The layout settings are inert: whatever the indentation, the placement of braces and the empty
lines, an entry fails with the same fault or has the same text up to spaces, tabs and line ends. -/
theorem visible_text_ignores_layout (c : Config) (s s' : Settings) (entry : Entry)
    (hpattern : s.argumentPattern = s'.argumentPattern) (hfold : s.foldDefaults = s'.foldDefaults)
    (henums : s.enumsFirst = s'.enumsFirst)
    (hindent : ∀ character ∈ s.indent.toList, character = ' ' ∨ character = '\t')
    (hindent' : ∀ character ∈ s'.indent.toList, character = ' ' ∨ character = '\t') :
    (∃ fault, ({ c with settings := s } : Config).decompileToText entry = .error fault ∧
      ({ c with settings := s' } : Config).decompileToText entry = .error fault) ∨
    ∃ text text', ({ c with settings := s } : Config).decompileToText entry = .ok text ∧
      ({ c with settings := s' } : Config).decompileToText entry = .ok text' ∧
      visible text = visible text' := by
  have hplain : ({ c with settings := s } : Config).plain =
      ({ c with settings := s' } : Config).plain := by
    simp only [Config.plain, Settings.plain, hpattern, hfold, henums]
  have hfirst :=
    Config.decompileToText_ink { c with settings := s } (visible_eq_nil hindent) entry
  have hsecond :=
    Config.decompileToText_ink { c with settings := s' } (visible_eq_nil hindent') entry
  rw [hplain] at hfirst
  exact hfirst.eq_or_eq hsecond

namespace Sample

/-- A function declared before a branch. -/
def leaping : Entry where
  name := "gml_Object_player_Create_0"
  body := [.routine ⟨"gml_Script_leap", some "leap", false, 0⟩ [.block ⟨0, [.plain .exit]⟩],
    .block ⟨0, [.pushImmediate 1]⟩,
    .branch [.block ⟨0, [.call "leap" 0, .plain .popDelete]⟩] none]

/-- A game with an enum. -/
def compass : Config where
  enums := [⟨"Side", [⟨"left", 0⟩]⟩]

/-- Lines indented by tabs, braces on lines of their own, and no empty lines. -/
def compact : Settings where
  blankAroundEnums := false
  blankAroundRoutines := false
  braceOnSameLine := false
  indent := "\t"

end Sample

/-- The two texts of the entry differ, but not in their visible characters. -/
theorem visible_text_ignores_layout_leaping :
    ∃ text text', Sample.compass.decompileToText Sample.leaping = .ok text ∧
      ({ Sample.compass with settings := Sample.compact } : Config).decompileToText Sample.leaping =
        .ok text' ∧ text ≠ text' ∧ visible text = visible text' := by
  have hdiffer : (Sample.compass.decompileToText Sample.leaping).toOption ≠
      (({ Sample.compass with settings := Sample.compact } : Config).decompileToText
        Sample.leaping).toOption := by
    decide +kernel
  have hspaces : ({} : Settings).indent.toList = [' ', ' ', ' ', ' '] := by decide +kernel
  have htab : Sample.compact.indent.toList = ['\t'] := by decide +kernel
  have hlayout := visible_text_ignores_layout Sample.compass {} Sample.compact Sample.leaping
    rfl rfl rfl (by simp [hspaces]) (by simp [htab])
  rcases hlayout with ⟨fault, hfirst, hsecond⟩ | ⟨text, text', hfirst, hsecond, hvisible⟩
  · refine absurd ?_ hdiffer
    exact congrArg Except.toOption (hfirst.trans hsecond.symm)
  · refine ⟨text, text', hfirst, hsecond, fun hsame => hdiffer ?_, hvisible⟩
    rw [hsecond, ← hsame]
    exact congrArg Except.toOption hfirst

end GmlDecompiler

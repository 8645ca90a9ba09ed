import GmlDecompiler.Layout.Source
import GmlDecompiler.Proofs.Computations
import GmlDecompiler.Proofs.Layout.Ink

/-!
# Outlines

The outline of a tree leaves out the marks for empty lines around declarations, and of the fragments
in it what only building needs. The steps of an outline are those of the tree without the empty
lines, so that both write the same visible characters.
-/

namespace GmlDecompiler

/-- An enum declaration without the marks for empty lines. -/
def EnumDecl.outline (e : EnumDecl) : EnumDecl where
  definition := e.definition

mutual

/-- The outline of an expression. -/
def Expr.outline : Expr → Expr
  | ⟨shape, duplicated, grouped, slot⟩ => ⟨shape.outline, duplicated, grouped, slot⟩

/-- The outline of a shape. -/
def Shape.outline : Shape → Shape
  | .access a => .access a.outline
  | .unary operator operand => .unary operator operand.outline
  | .binary operator left right => .binary operator left.outline right.outline
  | .call function arguments => .call function (outlineExprs arguments)
  | .callValue callee self arguments =>
    .callValue callee.outline self.outline (outlineExprs arguments)
  | .construct callee arguments => .construct callee.outline (outlineExprs arguments)
  | .chain logic conditions => .chain logic (outlineExprs conditions)
  | .routine routine => .routine routine.outline
  | .struct routine => .struct routine.outline
  | .int16 value => .int16 value
  | .int32 value => .int32 value
  | .int64 value => .int64 value
  | .double value => .double value
  | .string value => .string value
  | .boolean value => .boolean value
  | .keyword value => .keyword value
  | .function name => .function name
  | .constant name => .constant name

/-- The outline of a variable access. -/
def Access.outline : Access → Access
  | ⟨target, reference, owner, indices, regularPush, argumentName⟩ =>
    ⟨target, reference, owner.outline, outlineOptionalExprs indices, regularPush, argumentName⟩

/-- The outlines of expressions. -/
def outlineExprs : List Expr → List Expr
  | [] => []
  | e :: es => e.outline :: outlineExprs es

/-- The outlines of expressions, if there are any. -/
def outlineOptionalExprs : Option (List Expr) → Option (List Expr)
  | none => none
  | some es => some (outlineExprs es)

/-- The outline of an expression, if there is one. -/
def outlineOptionalExpr : Option Expr → Option Expr
  | none => none
  | some e => some e.outline

/-- The outline of a statement. -/
def Stmt.outline : Stmt → Stmt
  | .block block => .block block.outline
  | .eval value => .eval value.outline
  | .assign target value => .assign target.outline value.outline
  | .static target value => .static target.outline value.outline
  | .ret value => .ret value.outline
  | .exit => .exit
  | .leave => .leave
  | .again => .again
  | .branch condition thenPart elsePart =>
    .branch condition.outline thenPart.outline (outlineOptionalBlock elsePart)
  | .loop condition body => .loop condition.outline body.outline
  | .guarded body cleanup => .guarded body.outline (outlineOptionalBlock cleanup)
  | .locals names => .locals names
  | .routine routine => .routine routine.outline
  | .enum declaration => .enum declaration.outline

/-- The outline of a block. -/
def Block.outline : Block → Block
  | ⟨statements, braced⟩ => ⟨outlineStmts statements, braced⟩

/-- The outline of a block, if there is one. -/
def outlineOptionalBlock : Option Block → Option Block
  | none => none
  | some block => some block.outline

/-- The outlines of statements. -/
def outlineStmts : List Stmt → List Stmt
  | [] => []
  | s :: ss => s.outline :: outlineStmts ss

/-- The outline of a routine. -/
def Routine.outline : Routine → Routine
  | ⟨name, isConstructor, body, fragment, defaults, parameters, _, _⟩ =>
    ⟨name, isConstructor, body.outline, fragment.outline, outlineDefaults defaults, parameters,
      false, false⟩

/-- The outlines of default values. -/
def outlineDefaults : List (Nat × Expr) → List (Nat × Expr)
  | [] => []
  | (index, value) :: rest => (index, value.outline) :: outlineDefaults rest

/-- The outline of a fragment. -/
def Fragment.outline : Fragment → Fragment
  | ⟨codeName, name, _, locals, naming, maxArgument, inLoop, _, purge, routineNames, _,
      structArguments, parentCall⟩ =>
    ⟨codeName, name, [], locals, naming, maxArgument, inLoop, [], purge, routineNames, [],
      outlineOptionalExprs structArguments, outlineOptionalExpr parentCall⟩

end

/-- The outlines of expressions, one by one. -/
@[simp] theorem outlineExprs_eq (es : List Expr) : outlineExprs es = es.map Expr.outline := by
  induction es with
  | nil => rfl
  | cons e es ih => rw [outlineExprs, ih, List.map_cons]

/-- The outlines of statements, one by one. -/
@[simp] theorem outlineStmts_eq (ss : List Stmt) : outlineStmts ss = ss.map Stmt.outline := by
  induction ss with
  | nil => rfl
  | cons s ss ih => rw [outlineStmts, ih, List.map_cons]

namespace Expr

/-- The outline of an expression has the outline of its shape. -/
theorem shape_outline (e : Expr) : e.outline.shape = e.shape.outline := by
  cases e
  rfl

/-- An expression is an access exactly if its outline is one. -/
theorem access?_outline (e : Expr) : e.outline.access? = e.access?.map Access.outline := by
  unfold access?
  rw [shape_outline]
  cases e.shape <;> rfl

/-- The instance that an owner names is named by its outline. -/
theorem instance?_outline (e : Expr) : e.outline.instance? = e.instance? := by
  unfold instance?
  rw [shape_outline]
  cases e.shape <;> rfl

/-- A constructor is called by name exactly if its outline is. -/
theorem isPlainConstructor_outline (e : Expr) :
    e.outline.isPlainConstructor = e.isPlainConstructor := by
  unfold isPlainConstructor
  rw [shape_outline]
  cases e.shape <;> rfl

end Expr

/-- The outline of an access is of the same variable. -/
theorem Access.target_outline (a : Access) : a.outline.target = a.target := by
  cases a
  rfl

namespace Stmt

/-- A statement is a member of a struct literal exactly if its outline is. -/
theorem isMember_outline (s : Stmt) : s.outline.isMember = s.isMember := by
  cases s <;> rfl

/-- A statement ends with a semicolon exactly if its outline does. -/
theorem hasSemicolon_outline (s : Stmt) : s.outline.hasSemicolon = s.hasSemicolon := by
  cases s <;> rfl

/-- The outline of a statement has no empty lines around it. -/
theorem blanks_outline (s : Stmt) :
    s.outline.blankBefore = false ∧ s.outline.blankAfter = false := by
  cases s with
  | routine r =>
    cases r
    exact ⟨rfl, rfl⟩
  | block | eval | assign | static | ret | exit | leave | again | branch | loop | guarded | locals
  | enum => exact ⟨rfl, rfl⟩

end Stmt

/-- Statements have a member of a struct literal among them exactly if their outlines have. -/
theorem any_isMember_outline (ss : List Stmt) :
    (ss.map Stmt.outline).any Stmt.isMember = ss.any Stmt.isMember := by
  rw [List.any_map]
  exact congrArg (List.any ss) (funext Stmt.isMember_outline)

/-- Statements can be the body of a struct literal exactly if their outlines can. -/
theorem isStructBody_outline (ss : List Stmt) :
    isStructBody (ss.map Stmt.outline) = isStructBody ss := by
  unfold isStructBody
  rw [List.all_map]
  refine congrArg (List.all ss) (funext fun s => ?_)
  cases s <;> rfl

/-- A step without the layout that only some settings have: an empty line is left out, and the
fragment of a scope is outlined. -/
@[simp] def Step.outline : Step → List Step
  | .blankLine => []
  | .enter fragment => [.enter fragment.outline]
  | other => [other]

/-- Steps without the layout that only some settings have. -/
def outlineSteps (steps : List Step) : List Step :=
  steps.flatMap Step.outline

/-- Nothing is left out of no steps. -/
@[simp] theorem outlineSteps_nil : outlineSteps [] = [] := rfl

/-- The outline of steps is made step by step. -/
@[simp] theorem outlineSteps_cons (step : Step) (steps : List Step) :
    outlineSteps (step :: steps) = step.outline ++ outlineSteps steps :=
  List.flatMap_cons

/-- The outline of steps in a row. -/
@[simp] theorem outlineSteps_append (first second : List Step) :
    outlineSteps (first ++ second) = outlineSteps first ++ outlineSteps second :=
  List.flatMap_append

/-- The outline of steps writes the same visible characters. -/
theorem ink_outlineSteps (names : FunctionNames) (scopes : List (Table String String))
    (steps : List Step) : ink names scopes (outlineSteps steps) = ink names scopes steps := by
  induction steps generalizing scopes with
  | nil => rfl
  | cons s steps ih =>
    rw [outlineSteps_cons]
    cases s with
    | blankLine => exact ih scopes
    | enter fragment =>
      have hnames : fragment.outline.routineNames = fragment.routineNames := by
        cases fragment
        rfl
      rw [Step.outline, List.singleton_append, ink, ink, ih]
      simp only [Step.scopesAfter, Step.ink, hnames]
    | write | function | startLine | endLine | openBlock | openInline | closeBlock | continueAfter
    | leave => exact congrArg (_ ++ ·) (ih _)

/-- Parentheses are part of the outline. -/
theorem outlineSteps_parenthesize (condition : Bool) (steps : List Step) :
    outlineSteps (parenthesize condition steps) = parenthesize condition (outlineSteps steps) := by
  unfold parenthesize
  split
  · simp
  · rfl

/-- The heading of a routine is part of the outline, since it has no empty line in it. -/
theorem outlineSteps_heading (name : Option String) :
    outlineSteps (Routine.heading name) = Routine.heading name := by
  cases name <;> rfl

/-- The members of an enum are part of the outline. -/
theorem EnumDecl.outlineSteps_memberSteps (expected : Int64) (members : List EnumMember) :
    outlineSteps (memberSteps expected members) = memberSteps expected members := by
  induction members generalizing expected with
  | nil => rfl
  | cons m rest ih =>
    unfold memberSteps
    dsimp only
    split <;> split <;> simp [ih]

/-- An enum declaration is written as its outline is: the empty lines around it are those of the
block. -/
theorem EnumDecl.outlineSteps_steps (e : EnumDecl) : outlineSteps e.steps = e.outline.steps := by
  simp [steps, outline, outlineSteps_memberSteps]

/-- Changing the values of a table changes what is found in it. -/
theorem lookup_map_snd {α β : Type} (change : α → β) (index : Nat) (table : List (Nat × α)) :
    (table.map fun p => (p.1, change p.2)).lookup index = (table.lookup index).map change := by
  induction table with
  | nil => rfl
  | cons p table ih =>
    rw [List.map_cons, List.lookup_cons, List.lookup_cons, ih]
    split <;> rfl

/-- The parameters of an outline, if its default values have the steps of theirs. -/
theorem parameterSteps_outline (defaults : List (Nat × Except Fault (List Step))) (index : Nat)
    (names : List String) :
    Mirrors outlineSteps (parameterSteps defaults index names)
      (parameterSteps (defaults.map fun p => (p.1, p.2.map outlineSteps)) index names) := by
  induction names generalizing index with
  | nil => exact .ok rfl
  | cons name rest ih =>
    let comma : List Step := if rest.isEmpty then [] else [.write ", "]
    have hcomma : outlineSteps comma = comma := by
      unfold comma
      split <;> rfl
    have hend {value value' : List Step} (hvalue : value' = outlineSteps value) :
        Mirrors outlineSteps
          (parameterSteps defaults (index + 1) rest >>= fun steps =>
            .ok (.write name :: value ++ comma ++ steps))
          (parameterSteps (defaults.map fun p => (p.1, p.2.map outlineSteps)) (index + 1) rest >>=
            fun steps => .ok (.write name :: value' ++ comma ++ steps)) :=
      (ih (index + 1)).bind fun steps => .ok (by simp [hvalue, hcomma])
    rw [parameterSteps, parameterSteps, lookup_map_snd]
    cases defaults.lookup index with
    | none => exact hend rfl
    | some value =>
      have hvalue : Mirrors outlineSteps value (value.map outlineSteps) := rfl
      exact hvalue.bind fun steps => hend rfl

mutual

/-- The steps of the outline of an expression are those of the expression without empty lines. -/
theorem Expr.steps_outline (e : Expr) : Mirrors outlineSteps e.steps e.outline.steps :=
  match e with
  | ⟨shape, _, grouped, _⟩ =>
    shape.steps_outline.bind fun steps => .ok (outlineSteps_parenthesize grouped steps).symm
termination_by structural e

/-- The steps of the outline of a shape are those of the shape without empty lines. -/
theorem Shape.steps_outline (shape : Shape) :
    Mirrors outlineSteps shape.steps shape.outline.steps :=
  match shape with
  | .int16 _ | .int32 _ | .int64 _ | .double _ | .string _ | .boolean _ | .keyword _
  | .function _ | .constant _ => .ok rfl
  | .access a => a.steps_outline
  | .unary operator operand => operand.steps_outline.bind fun _ => .ok rfl
  | .binary operator left right => by
    refine left.steps_outline.bind fun first => ?_
    refine right.steps_outline.bind fun second => .ok ?_
    simp
  | .call function arguments => by
    refine (separatedSteps_outline [.write ", "] rfl arguments).bind fun steps => .ok ?_
    simp
  | .callValue callee _ arguments => by
    refine callee.steps_outline.bind fun first => ?_
    refine (separatedSteps_outline [.write ", "] rfl arguments).bind fun second => .ok ?_
    simp
  | .construct callee arguments => by
    rw [Shape.outline, Shape.steps, Shape.steps, callee.isPlainConstructor_outline]
    split
    · refine callee.steps_outline.bind fun first => ?_
      refine (separatedSteps_outline [.write ", "] rfl arguments).bind fun second => .ok ?_
      simp
    · exact .error _
  | .chain _ conditions => separatedSteps_outline _ rfl conditions
  | .routine routine => routine.steps_outline
  | .struct routine => routine.structSteps_outline
termination_by structural shape

/-- The steps of the outline of an access. Whether the owner is shown does not depend on the
outline. -/
theorem Access.steps_outline (a : Access) : Mirrors outlineSteps a.steps a.outline.steps :=
  match a with
  | ⟨_, _, _, _, _, some name⟩ => .ok rfl
  | ⟨target, _, owner, indices, _, none⟩ => by
    have hend {first first' : List Step} (hfirst : first' = outlineSteps first) :
        Mirrors outlineSteps
          (indexSteps indices >>= fun steps => .ok (first ++ .write target.name :: steps))
          (indexSteps (outlineOptionalExprs indices) >>= fun steps =>
            .ok (first' ++ .write target.name :: steps)) := by
      refine (indexSteps_outline indices).bind fun steps => .ok ?_
      simp [hfirst]
    rw [Access.outline, Access.steps, Access.steps, owner.instance?_outline]
    split
    · split
      · exact hend rfl
      · exact hend rfl
    · refine owner.steps_outline.bind fun steps => hend ?_
      simp
termination_by structural a

/-- The steps of the outlines of indices. -/
theorem indexSteps_outline (indices : Option (List Expr)) :
    Mirrors outlineSteps (indexSteps indices) (indexSteps (outlineOptionalExprs indices)) :=
  match indices with
  | none => .ok rfl
  | some indices => by
    refine (separatedSteps_outline [.write ", "] rfl indices).bind fun steps => .ok ?_
    simp
termination_by structural indices

/-- The steps of the outlines of expressions, with a separator that has no empty line in it. -/
theorem separatedSteps_outline (separator : List Step)
    (hseparator : outlineSteps separator = separator) (es : List Expr) :
    Mirrors outlineSteps (separatedSteps separator es)
      (separatedSteps separator (outlineExprs es)) :=
  match es with
  | [] => .ok rfl
  | [e] => e.steps_outline
  | e :: e' :: es => by
    refine e.steps_outline.bind fun first => ?_
    refine (separatedSteps_outline separator hseparator (e' :: es)).bind fun rest => .ok ?_
    simp [hseparator]
termination_by structural es

/-- The steps of the outline of a statement are those of the statement without empty lines. -/
theorem Stmt.steps_outline (s : Stmt) : Mirrors outlineSteps s.steps s.outline.steps :=
  match s with
  | .block block => block.steps_outline
  | .eval value => value.steps_outline
  | .assign target value => by
    refine target.steps_outline.bind fun first => ?_
    refine value.steps_outline.bind fun second => .ok ?_
    simp
  | .static target value => by
    refine target.steps_outline.bind fun first => ?_
    refine value.steps_outline.bind fun second => .ok ?_
    simp
  | .ret value => value.steps_outline.bind fun _ => .ok rfl
  | .exit | .leave | .again | .locals _ => .ok rfl
  | .branch condition thenPart elsePart => by
    refine condition.steps_outline.bind fun first => ?_
    refine thenPart.steps_outline.bind fun second => ?_
    refine (continuedSteps_outline "else" elsePart).bind fun third => .ok ?_
    simp
  | .loop condition body => by
    refine condition.steps_outline.bind fun first => ?_
    refine body.steps_outline.bind fun second => .ok ?_
    simp
  | .guarded body cleanup => by
    refine body.steps_outline.bind fun first => ?_
    refine (continuedSteps_outline "finally" cleanup).bind fun second => .ok ?_
    simp
  | .routine routine => routine.steps_outline
  | .enum declaration => .ok declaration.outlineSteps_steps.symm
termination_by structural s

/-- The steps of the outline of a block that goes on after another. -/
theorem continuedSteps_outline (keyword : String) (block : Option Block) :
    Mirrors outlineSteps (continuedSteps keyword block)
      (continuedSteps keyword (outlineOptionalBlock block)) :=
  match block with
  | none => .ok rfl
  | some block => block.steps_outline.bind fun _ => .ok rfl
termination_by structural block

/-- The steps of the outline of a block are those of the block without empty lines. -/
theorem Block.steps_outline (block : Block) :
    Mirrors outlineSteps block.steps block.outline.steps :=
  match block with
  | ⟨statements, braced⟩ => by
    refine (lineSteps_outline false statements).bind fun steps => .ok ?_
    cases braced <;> simp
termination_by structural block

/-- The steps of the outlines of statements. The empty lines between the statements are left out
here. -/
theorem lineSteps_outline (blankDue : Bool) (ss : List Stmt) :
    Mirrors outlineSteps (lineSteps blankDue ss) (lineSteps false (outlineStmts ss)) :=
  match ss with
  | [] => .ok rfl
  | s :: rest => by
    -- whether an empty line was due or not, none is due between outlines
    have hnext :
        (s.outline.blankAfter || (outlineStmts rest).head?.any Stmt.blankBefore) = false := by
      rw [s.blanks_outline.2]
      cases rest with
      | nil => rfl
      | cons t rest => exact t.blanks_outline.1
    rw [outlineStmts, lineSteps, lineSteps, hnext]
    refine s.steps_outline.bind fun first => ?_
    refine (lineSteps_outline _ rest).bind fun second => .ok ?_
    rw [s.hasSemicolon_outline]
    cases blankDue <;> cases s.hasSemicolon <;> simp
termination_by structural ss

/-- The steps of the outline of a routine are those of the routine without empty lines. -/
theorem Routine.steps_outline (r : Routine) : Mirrors outlineSteps r.steps r.outline.steps :=
  match r with
  | ⟨name, isConstructor, body, fragment, defaults, parameters, _, _⟩ => by
    rw [Routine.outline, Routine.steps, Routine.steps, defaultSteps_outline defaults]
    refine (parameterSteps_outline _ 0 parameters).bind fun first => ?_
    refine fragment.parentCallSteps_outline.bind fun second => ?_
    refine body.steps_outline.bind fun third => .ok ?_
    cases isConstructor <;> simp [outlineSteps_heading]
termination_by structural r

/-- The steps of the outlines of default values, each with its index. -/
theorem defaultSteps_outline (defaults : List (Nat × Expr)) :
    defaultSteps (outlineDefaults defaults) =
      (defaultSteps defaults).map fun p => (p.1, p.2.map outlineSteps) :=
  match defaults with
  | [] => rfl
  | (index, value) :: rest => by
    rw [outlineDefaults, defaultSteps, defaultSteps, List.map_cons, defaultSteps_outline rest,
      value.steps_outline]
termination_by structural defaults

/-- The steps of the outline of the call of the parent constructor. -/
theorem Fragment.parentCallSteps_outline (f : Fragment) :
    Mirrors outlineSteps f.parentCallSteps f.outline.parentCallSteps :=
  match f with
  | ⟨_, _, _, _, _, _, _, _, _, _, _, _, none⟩ => .ok rfl
  | ⟨_, _, _, _, _, _, _, _, _, _, _, _, some call⟩ =>
    call.steps_outline.bind fun _ => .ok rfl
termination_by structural f

/-- The steps of the outline of a struct literal. -/
theorem Routine.structSteps_outline (r : Routine) :
    Mirrors outlineSteps r.structSteps r.outline.structSteps :=
  match r with
  | ⟨_, _, body, _, _, _, _, _⟩ => body.structSteps_outline
termination_by structural r

/-- The steps of the outline of the body of a struct literal. Whether the body can be written does
not depend on the outline. -/
theorem Block.structSteps_outline (block : Block) :
    Mirrors outlineSteps block.structSteps block.outline.structSteps :=
  match block with
  | ⟨statements, braced⟩ => by
    have hmembers := memberSteps_outline statements
    rw [Block.outline, Block.structSteps, Block.structSteps]
    rw [outlineStmts_eq] at hmembers ⊢
    rw [isStructBody_outline, any_isMember_outline]
    split
    · exact .error _
    · split
      · exact .ok rfl
      · exact hmembers.bind fun steps => .ok (by simp)
termination_by structural block

/-- The steps of the outlines of members. -/
theorem memberSteps_outline (ss : List Stmt) :
    Mirrors outlineSteps (memberSteps ss) (memberSteps (outlineStmts ss)) :=
  match ss with
  | [] => .ok rfl
  | .assign target value :: rest => by
    have hmembers := memberSteps_outline rest
    rw [outlineStmts, Stmt.outline, memberSteps, memberSteps, target.access?_outline]
    cases target.access? with
    | none => exact .error _
    | some a =>
      refine value.steps_outline.bind fun first => ?_
      refine hmembers.bind fun second => .ok ?_
      rw [outlineStmts_eq, any_isMember_outline, a.target_outline]
      cases rest.any Stmt.isMember <;> simp
  | .block _ :: rest | .eval _ :: rest | .static _ _ :: rest | .ret _ :: rest | .exit :: rest
  | .leave :: rest | .again :: rest | .branch _ _ _ :: rest | .loop _ _ :: rest
  | .guarded _ _ :: rest | .locals _ :: rest | .routine _ :: rest | .enum _ :: rest =>
    memberSteps_outline rest
termination_by structural ss

end

end GmlDecompiler

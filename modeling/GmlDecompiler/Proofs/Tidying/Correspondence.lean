import GmlDecompiler.Proofs.Tidying.Noting
import Mathlib.Data.List.Forall2

/-!
# What a tree becomes

A tidied tree corresponds to the tree that it was made from, node for node. `Becomes` tells what may
differ: parentheses around operands and conditions, integers that are read, the names that arguments
are shown by, and values that stand for the arguments of a struct literal. It also tells which
arguments are noted in the scope around the tree: those of the accesses that stay. What a value
stands for is not among them.
-/

namespace GmlDecompiler

namespace Config

/-- The reading of the variable that an expression is. -/
def variableReading? (c : Config) (e : Expr) : Option Reading :=
  e.access?.bind fun a => c.readings.byVariable[a.target.name]?

/-- The reading for an operand, by what stands on the other side of the operator. -/
def operandReading? (c : Config) (operator : Instruction) (beside : Expr) : Option Reading :=
  if operator.opcode = .compare then c.variableReading? beside else none

/-- The reading of an argument of a function. -/
def argumentReading? (c : Config) (function : String) (index : Nat) : Option Reading :=
  c.readings.byFunction[function]?.bind fun readings => readings[index]?.join

end Config

/-- The expression as it is read, if there is a reading for it. -/
def Expr.readBy (c : Config) (reading : Option Reading) (e : Expr) : Expr :=
  reading.elim e fun reading => reading.apply c.enums e

/-- The expression, or the same in parentheses. -/
def Expr.MayGroup (e e' : Expr) : Prop :=
  e' = e ∨ e' = { e with grouped := true }

mutual

/-- What an expression becomes, inside a routine or not, in a scope that knows by now all arguments
that were noted meanwhile. -/
inductive Expr.Becomes (c : Config) : Bool → Fragment → Expr → List Nat → Expr → Prop
  /-- The value of an argument takes the place of a variable, as it is. -/
  | value {nested g a index values v duplicated grouped slot} :
    a.argumentIndex? = some index → g.structArguments = some values → values[index]? = some v →
    Expr.Becomes c nested g ⟨.access a, duplicated, grouped, slot⟩ [] v
  /-- Any other expression stays. -/
  | kept {nested g shape shape' noted duplicated grouped slot} :
    (∀ a index values, shape = .access a → a.argumentIndex? = some index →
      g.structArguments = some values → values[index]? = none) →
    Shape.Becomes c nested g shape noted shape' →
    Expr.Becomes c nested g ⟨shape, duplicated, grouped, slot⟩ noted
      ⟨shape', duplicated, grouped, slot⟩

/-- What a shape becomes. -/
inductive Shape.Becomes (c : Config) : Bool → Fragment → Shape → List Nat → Shape → Prop
  | atom {nested g shape} : shape.isAtom = true → Shape.Becomes c nested g shape [] shape
  | access {nested g a a' noted} :
    Access.Becomes c nested g a noted a' →
    Shape.Becomes c nested g (.access a) noted (.access a')
  | unary {nested g operator operand operand' shown noted} :
    Expr.Becomes c nested g operand noted operand' → operand'.MayGroup shown →
    Shape.Becomes c nested g (.unary operator operand) noted (.unary operator shown)
  /-- Of two operands that are compared, each is read by the reading of the other. -/
  | binary {nested g operator left right left' right' shownLeft shownRight first second} :
    Expr.Becomes c nested g left first left' → Expr.Becomes c nested g right second right' →
    (left'.readBy c (c.operandReading? operator right')).MayGroup shownLeft →
    (right'.readBy c (c.operandReading? operator left')).MayGroup shownRight →
    Shape.Becomes c nested g (.binary operator left right) (first ++ second)
      (.binary operator shownLeft shownRight)
  /-- Each argument is read by its own reading. -/
  | call {nested g function arguments arguments' noted} :
    ExprsBecome c nested g arguments noted arguments' →
    Shape.Becomes c nested g (.call function arguments) noted (.call function
      (arguments'.mapIdx fun index e => e.readBy c (c.argumentReading? function index)))
  | callValue {nested g callee callee' self self' arguments arguments' first second third} :
    Expr.Becomes c nested g callee first callee' → Expr.Becomes c nested g self second self' →
    ExprsBecome c nested g arguments third arguments' →
    Shape.Becomes c nested g (.callValue callee self arguments) (first ++ (second ++ third))
      (.callValue callee' self' arguments')
  | construct {nested g callee callee' arguments arguments' first second} :
    Expr.Becomes c nested g callee first callee' →
    ExprsBecome c nested g arguments second arguments' →
    Shape.Becomes c nested g (.construct callee arguments) (first ++ second)
      (.construct callee' arguments')
  | chain {nested g logic conditions conditions' shown noted} :
    ExprsBecome c nested g conditions noted conditions' →
    List.Forall₂ Expr.MayGroup conditions' shown →
    Shape.Becomes c nested g (.chain logic conditions) noted (.chain logic shown)
  /-- A routine has a scope of its own, so that nothing is noted around it. -/
  | routine {nested g r r'} :
    Routine.Becomes c r.fragment.structArguments r r' →
    Shape.Becomes c nested g (.routine r) [] (.routine r')
  /-- The values of a struct literal belong to the scope around it. -/
  | struct {nested g r r' values noted} :
    OptionalExprsBecome c nested g r.fragment.structArguments noted values →
    Routine.Becomes c values r r' →
    Shape.Becomes c nested g (.struct r) noted (.struct r')

/-- What a variable access becomes. It is noted if it reads an argument then. -/
inductive Access.Becomes (c : Config) : Bool → Fragment → Access → List Nat → Access → Prop
  | intro {nested g a a' owner indices first second} :
    Expr.Becomes c nested g a.owner first owner →
    OptionalExprsBecome c nested g a.indices second indices →
    a' = { a with
      owner := owner
      indices := indices
      argumentName := c.nameShown nested g { a with indices := indices } } →
    Access.Becomes c nested g a (first ++ (second ++ a'.argumentIndex?.toList)) a'

/-- What expressions become. -/
inductive ExprsBecome (c : Config) : Bool → Fragment → List Expr → List Nat → List Expr → Prop
  | nil {nested g} : ExprsBecome c nested g [] [] []
  | cons {nested g e e' es es' first second} :
    Expr.Becomes c nested g e first e' → ExprsBecome c nested g es second es' →
    ExprsBecome c nested g (e :: es) (first ++ second) (e' :: es')

/-- What expressions become, if there are any. -/
inductive OptionalExprsBecome (c : Config) :
    Bool → Fragment → Option (List Expr) → List Nat → Option (List Expr) → Prop
  | none {nested g} : OptionalExprsBecome c nested g none [] none
  | some {nested g es es' noted} :
    ExprsBecome c nested g es noted es' →
    OptionalExprsBecome c nested g (some es) noted (some es')

/-- What an expression becomes, if there is one. -/
inductive OptionalExprBecomes (c : Config) :
    Bool → Fragment → Option Expr → List Nat → Option Expr → Prop
  | none {nested g} : OptionalExprBecomes c nested g none [] none
  | some {nested g e e' noted} :
    Expr.Becomes c nested g e noted e' →
    OptionalExprBecomes c nested g (some e) noted (some e')

/-- What a statement becomes. -/
inductive Stmt.Becomes (c : Config) : Bool → Fragment → Stmt → List Nat → Stmt → Prop
  | block {nested g block block' noted} :
    Block.Becomes c nested g block noted block' →
    Stmt.Becomes c nested g (.block block) noted (.block block')
  | eval {nested g value value' noted} :
    Expr.Becomes c nested g value noted value' →
    Stmt.Becomes c nested g (.eval value) noted (.eval value')
  /-- The value that is assigned to a variable is read by the reading of the variable. -/
  | assign {nested g target target' value value' first second} :
    Expr.Becomes c nested g target first target' → Expr.Becomes c nested g value second value' →
    Stmt.Becomes c nested g (.assign target value) (first ++ second)
      (.assign target' (value'.readBy c (c.variableReading? target')))
  /-- A named routine that is assigned to the variable of its name is declared. -/
  | declare {nested g target target' value value' r first second} :
    Expr.Becomes c nested g target first target' → Expr.Becomes c nested g value second value' →
    value'.shape = .routine r → r.name.isSome = true →
    r.name = target'.access?.map (·.target.name) →
    Stmt.Becomes c nested g (.assign target value) (first ++ second) (.routine r)
  /-- The value that a static variable is declared with is not read. -/
  | static {nested g target target' value value' first second} :
    Expr.Becomes c nested g target first target' → Expr.Becomes c nested g value second value' →
    Stmt.Becomes c nested g (.static target value) (first ++ second) (.static target' value')
  | ret {nested g value value' noted} :
    Expr.Becomes c nested g value noted value' →
    Stmt.Becomes c nested g (.ret value) noted (.ret value')
  | exit {nested g} : Stmt.Becomes c nested g .exit [] .exit
  | leave {nested g} : Stmt.Becomes c nested g .leave [] .leave
  | again {nested g} : Stmt.Becomes c nested g .again [] .again
  | branch {nested g condition condition' thenPart thenPart' elsePart elsePart' first second third} :
    Expr.Becomes c nested g condition first condition' →
    Block.Becomes c nested g thenPart second thenPart' →
    OptionalBlockBecomes c nested g elsePart third elsePart' →
    Stmt.Becomes c nested g (.branch condition thenPart elsePart) (first ++ (second ++ third))
      (.branch condition' thenPart' elsePart')
  | loop {nested g condition condition' body body' first second} :
    Expr.Becomes c nested g condition first condition' →
    Block.Becomes c nested g body second body' →
    Stmt.Becomes c nested g (.loop condition body) (first ++ second) (.loop condition' body')
  | guarded {nested g body body' cleanup cleanup' first second} :
    Block.Becomes c nested g body first body' →
    OptionalBlockBecomes c nested g cleanup second cleanup' →
    Stmt.Becomes c nested g (.guarded body cleanup) (first ++ second) (.guarded body' cleanup')
  | locals {nested g names} : Stmt.Becomes c nested g (.locals names) [] (.locals names)
  | routine {nested g r r'} :
    Routine.Becomes c r.fragment.structArguments r r' →
    Stmt.Becomes c nested g (.routine r) [] (.routine r')
  /-- The empty lines around the declaration of an enum are chosen. -/
  | enum {nested g declaration} :
    Stmt.Becomes c nested g (.enum declaration) [] (.enum (declaration.tidy c))

/-- What a block becomes. -/
inductive Block.Becomes (c : Config) : Bool → Fragment → Block → List Nat → Block → Prop
  | intro {nested g ss ss' braced noted} :
    StmtsBecome c nested g ss noted ss' →
    Block.Becomes c nested g ⟨ss, braced⟩ noted ⟨ss', braced⟩

/-- What a block becomes, if there is one. -/
inductive OptionalBlockBecomes (c : Config) :
    Bool → Fragment → Option Block → List Nat → Option Block → Prop
  | none {nested g} : OptionalBlockBecomes c nested g none [] none
  | some {nested g block block' noted} :
    Block.Becomes c nested g block noted block' →
    OptionalBlockBecomes c nested g (some block) noted (some block')

/-- What statements become. -/
inductive StmtsBecome (c : Config) : Bool → Fragment → List Stmt → List Nat → List Stmt → Prop
  | nil {nested g} : StmtsBecome c nested g [] [] []
  | cons {nested g s s' ss ss' first second} :
    Stmt.Becomes c nested g s first s' → StmtsBecome c nested g ss second ss' →
    StmtsBecome c nested g (s :: ss) (first ++ second) (s' :: ss')

/-- What a routine becomes, with values for its struct arguments. Its body and the call of its
parent belong to its own scope. -/
inductive Routine.Becomes (c : Config) : Option (List Expr) → Routine → Routine → Prop
  | intro {values r g body parentCall first second} :
    g = c.noteAll true { r.fragment with structArguments := values } (first ++ second) →
    Block.Becomes c true g r.body first body →
    OptionalExprBecomes c true g r.fragment.parentCall second parentCall →
    Routine.Becomes c values r (c.finishRoutine { r with
      body := ⟨body.statements, true⟩
      fragment := { g with parentCall := parentCall } })

end

section Readings

variable (c : Config)

/-- An operand is read by the reading of the variable beside it, if there is one. -/
theorem Config.readBeside_getD (beside e : Expr) :
    (c.readBeside beside e).getD e = e.readBy c (c.variableReading? beside) := by
  unfold readBeside variableReading? Expr.readBy
  cases beside.access? with
  | none => rfl
  | some a =>
    simp only [Option.bind_some]
    cases c.readings.byVariable[a.target.name]? <;> rfl

/-- What is read is the expression again or an atom. -/
theorem Expr.readBy_redrawn (reading : Option Reading) (e : Expr) :
    e.Redrawn (e.readBy c reading) := by
  cases reading with
  | none => exact .refl e
  | some reading => exact reading.apply_redrawn c.enums e

/-- A variable is no integer literal, so that it is not read. -/
theorem Expr.readBy_of_access {e : Expr} {a : Access} (ha : e.access? = some a)
    (reading : Option Reading) : e.readBy c reading = e := by
  have hinteger : e.integer? = none := by
    unfold Expr.access? at ha
    unfold Expr.integer?
    split at ha
    · rename_i hshape
      rw [hshape]
    · cases ha
  cases reading with
  | none => rfl
  | some reading => simp only [readBy, Option.elim_some, Reading.apply, hinteger, Option.bind_none]

/-- Of two operands that are compared, each is read by the reading of the other. The code stops when
the right one is read; the left one is a variable then. -/
theorem Config.readCompared_eq (left right : Expr) :
    c.readCompared left right =
      (left.readBy c (c.variableReading? right), right.readBy c (c.variableReading? left)) := by
  have hright := c.readBeside_getD left right
  unfold readCompared
  split
  · rename_i right' hread
    rw [hread, Option.getD_some] at hright
    obtain ⟨a, ha, -⟩ := Option.bind_eq_some_iff.mp hread
    rw [Expr.readBy_of_access c ha, hright]
  · rename_i hread
    rw [hread, Option.getD_none] at hright
    rw [← hright, c.readBeside_getD]

/-- The operands of an operator are read and then put in parentheses. -/
theorem Config.operands_eq_groupOperands (operator : Instruction) (left right : Expr) :
    c.operands operator left right =
      groupOperands operator (left.readBy c (c.operandReading? operator right))
        (right.readBy c (c.operandReading? operator left)) := by
  unfold operands operandReading?
  by_cases hcompare : operator.opcode = .compare
  · simp only [if_pos hcompare, c.readCompared_eq]
  · simp only [if_neg hcompare]
    rfl

/-- Keeping every element of a list keeps the list. -/
theorem mapIdx_self {α : Type} (l : List α) : (l.mapIdx fun _ a => a) = l :=
  List.ext_getElem (by simp) (by simp)

/-- Each argument of a call is read by the reading for its place. -/
theorem Readings.applyAll_eq (enums : List EnumDef) (readings : List (Option Reading))
    (es : List Expr) :
    applyAll enums readings es =
      es.mapIdx fun index e => readings[index]?.join.elim e fun r => r.apply enums e := by
  induction readings generalizing es with
  | nil => simp [applyAll, mapIdx_self]
  | cons reading readings ih =>
    cases es with
    | nil => cases reading <;> rfl
    | cons e es => cases reading <;> simp [applyAll, ih, List.mapIdx_cons]

/-- The arguments of a call are read one by one. -/
theorem Config.readArguments_eq (function : String) (es : List Expr) :
    c.readings.readArguments c.enums function es =
      es.mapIdx fun index e => e.readBy c (c.argumentReading? function index) := by
  unfold Readings.readArguments argumentReading?
  cases c.readings.byFunction[function]? with
  | none => simp [Expr.readBy, mapIdx_self]
  | some readings => exact Readings.applyAll_eq c.enums readings es

end Readings

section Grouping

/-- Parentheses on a condition are parentheses or none. -/
theorem Expr.mayGroup_groupIf (condition : Bool) (e : Expr) : e.MayGroup (e.groupIf condition) := by
  cases condition with
  | true =>
    refine .inr ?_
    simp only [groupIf, Bool.or_true]
  | false =>
    refine .inl ?_
    cases e
    simp only [groupIf, Bool.or_false]

/-- A condition of a chain gets parentheses or stays. -/
theorem Config.mayGroup_groupCondition (e : Expr) : e.MayGroup (groupCondition e) := by
  unfold groupCondition
  split
  · exact e.mayGroup_groupIf true
  · exact .inl rfl

/-- Each condition of a chain gets parentheses or stays. -/
theorem Config.forall₂_mayGroup_groupCondition (es : List Expr) :
    List.Forall₂ Expr.MayGroup es (es.map groupCondition) :=
  List.forall₂_map_right_iff.mpr (List.forall₂_same.mpr fun e _ => mayGroup_groupCondition e)

end Grouping

/-- Operands are read and put in parentheses. -/
theorem Config.operands_become {c : Config} {nested : Bool} {g : Fragment}
    {left left' right right' : Expr} {first second : List Nat} (operator : Instruction)
    (hleft : left.Becomes c nested g first left') (hright : right.Becomes c nested g second right') :
    Shape.Becomes c nested g (.binary operator left right) (first ++ second)
      (.binary operator (c.operands operator left' right').1
        (c.operands operator left' right').2) := by
  rw [c.operands_eq_groupOperands]
  exact .binary hleft hright (Expr.mayGroup_groupIf _ _) (Expr.mayGroup_groupIf _ _)

/-- An assignment stays one, with its value read, or it declares the routine that is its value. -/
theorem Config.assign_becomes {c : Config} {nested : Bool} {g : Fragment}
    {target target' value value' : Expr} {first second : List Nat}
    (htarget : target.Becomes c nested g first target')
    (hvalue : value.Becomes c nested g second value') :
    Stmt.Becomes c nested g (.assign target value) (first ++ second) (c.assign target' value') := by
  have hread := c.readBeside_getD target' value'
  unfold Config.assign
  dsimp only
  rw [hread]
  split
  · rename_i r hshape
    split
    · rename_i hnamed
      obtain ⟨hsome, hsame⟩ := Bool.and_eq_true_iff.mp hnamed
      have hroutine : value'.shape = .routine r := by
        rcases value'.readBy_redrawn c (c.variableReading? target') with hkept | hatom
        · rw [← hkept, hshape]
        · rw [hshape] at hatom
          cases hatom
      exact .declare htarget hvalue hroutine hsome (eq_of_beq hsame)
    · exact .assign htarget hvalue
  · exact .assign htarget hvalue

/-- The values of a scope are those of what it becomes. -/
theorem Shape.substitute?_of_grows {shape : Shape} {f g : Fragment} {named : Prop} {outer : Scopes}
    (hgrows : f.Grows named g) :
    shape.substitute? (g :: outer) = shape.substitute? (f :: outer) := by
  cases shape with
  | access a =>
    simp only [substitute?, Scopes.structArgument?, List.head?_cons, Option.bind_some,
      hgrows.structArguments_eq]
  | int16 | int32 | int64 | double | string | boolean | keyword | function | constant | unary
  | binary | call | callValue | construct | chain | routine | struct => rfl

/-- A value stands for a variable exactly if the variable is an argument that has one. -/
theorem Shape.substitute?_eq_some_iff {shape : Shape} {f : Fragment} {outer : Scopes} {v : Expr} :
    shape.substitute? (f :: outer) = some v ↔ ∃ a index values, shape = .access a ∧
      a.argumentIndex? = some index ∧ f.structArguments = some values ∧ values[index]? = some v := by
  cases shape with
  | access a =>
    simp only [substitute?, Scopes.structArgument?, List.head?_cons, Option.bind_some,
      Option.bind_eq_some_iff, access.injEq]
    constructor
    · rintro ⟨index, hindex, values, hvalues, hvalue⟩
      exact ⟨a, index, values, rfl, hindex, hvalues, hvalue⟩
    · rintro ⟨_, index, values, rfl, hindex, hvalues, hvalue⟩
      exact ⟨index, hindex, values, hvalues, hvalue⟩
  | int16 | int32 | int64 | double | string | boolean | keyword | function | constant | unary
  | binary | call | callValue | construct | chain | routine | struct =>
    simp [substitute?]

/-- Finishing an access notes the argument that it reads and shows its name. -/
theorem Config.finishAccess_succeeds (c : Config) (outer : Scopes) (a : Access) :
    Succeeds c outer (c.finishAccess a) fun g noted a' => noted = a.argumentIndex?.toList ∧
      a' = { a with argumentName := c.nameShown (!outer.isEmpty) g a } := by
  intro f
  have hrun := c.finishAccess_notes a f outer (.refl False _)
  refine ⟨_, _, hrun, fun g hgrows => ⟨rfl, ?_⟩⟩
  have hlater := hrun.symm.trans (c.finishAccess_notes a f outer hgrows)
  exact congrArg Prod.fst (Except.ok.inj hlater)

mutual

/-- Tidying an expression. -/
theorem Expr.tidy_becomes (c : Config) (outer : Scopes) (e : Expr) :
    Succeeds c outer (e.tidy c) fun g noted e' => e.Becomes c (!outer.isEmpty) g noted e' := by
  match e with
  | ⟨shape, duplicated, grouped, slot⟩ =>
    intro f
    cases hvalue : shape.substitute? (f :: outer) with
    | some v =>
      refine ⟨v, [], ?_, fun g hgrows => ?_⟩
      · simp only [Expr.tidy, hvalue, bind, StateT.bind, Except.bind, pure_apply, get_apply,
          Config.noteAll_nil]
      · have hgrows : f.Grows False g := hgrows
        rw [← Shape.substitute?_of_grows hgrows] at hvalue
        obtain ⟨a, index, values, rfl, hindex, hvalues, hv⟩ :=
          Shape.substitute?_eq_some_iff.mp hvalue
        exact .value hindex hvalues hv
    | none =>
      obtain ⟨shape', noted, hrun, hbecomes⟩ := shape.tidy_becomes c outer f
      refine ⟨⟨shape', duplicated, grouped, slot⟩, noted, ?_, fun g hgrows => ?_⟩
      · simp only [Expr.tidy, hvalue, hrun, bind, StateT.bind, Except.bind, pure_apply, get_apply]
      · refine .kept (fun a index values hshape hindex hvalues => ?_) (hbecomes g hgrows)
        by_contra hstands
        obtain ⟨v, hv⟩ := Option.ne_none_iff_exists'.mp hstands
        have hsome : shape.substitute? (g :: outer) = some v :=
          Shape.substitute?_eq_some_iff.mpr ⟨a, index, values, hshape, hindex, hvalues, hv⟩
        rw [Shape.substitute?_of_grows ((Config.grows_noteAll noted).trans hgrows), hvalue] at hsome
        cases hsome
termination_by structural e

/-- Tidying a shape. -/
theorem Shape.tidy_becomes (c : Config) (outer : Scopes) (shape : Shape) :
    Succeeds c outer (shape.tidy c)
      fun g noted shape' => shape.Becomes c (!outer.isEmpty) g noted shape' := by
  match shape with
  | .access a => exact (a.tidy_becomes c outer).map fun _ _ _ ha => .access ha
  | .unary operator operand =>
    refine (operand.tidy_becomes c outer).map fun g noted operand' hoperand => ?_
    exact .unary hoperand (operand'.mayGroup_groupIf _)
  | .binary operator left right =>
    refine (left.tidy_becomes c outer).bind fun left' first => ?_
    exact (right.tidy_becomes c outer).map fun g second right' hright hleft =>
      Config.operands_become operator hleft hright
  | .call function arguments =>
    refine (tidyExprs_become c outer arguments).map fun g noted arguments' harguments => ?_
    rw [c.readArguments_eq]
    exact .call harguments
  | .callValue callee self arguments =>
    refine (callee.tidy_becomes c outer).bind fun callee' first => ?_
    refine (self.tidy_becomes c outer).bind fun self' second => ?_
    exact (tidyExprs_become c outer arguments).map fun g third arguments' harguments hself hcallee =>
      .callValue hcallee hself harguments
  | .construct callee arguments =>
    refine (callee.tidy_becomes c outer).bind fun callee' first => ?_
    exact (tidyExprs_become c outer arguments).map fun g second arguments' harguments hcallee =>
      .construct hcallee harguments
  | .chain logic conditions =>
    refine (tidyExprs_become c outer conditions).map fun g noted conditions' hconditions => ?_
    exact .chain hconditions (Config.forall₂_mayGroup_groupCondition conditions')
  | .routine r =>
    refine (r.tidy_becomes c outer r.fragment.structArguments).map fun g noted r' hr => ?_
    obtain ⟨rfl, hr⟩ := hr
    exact .routine hr
  | .struct r =>
    refine (r.tidyArguments_become c outer).bind fun values first => ?_
    refine (r.tidy_becomes c outer values).map fun g second r' hr hvalues => ?_
    obtain ⟨rfl, hr⟩ := hr
    rw [List.append_nil]
    exact .struct hvalues hr
  | .int16 _ | .int32 _ | .int64 _ | .double _ | .string _ | .boolean _ | .keyword _
  | .function _ | .constant _ => exact .pure fun g => .atom rfl
termination_by structural shape

/-- Tidying a variable access. -/
theorem Access.tidy_becomes (c : Config) (outer : Scopes) (a : Access) :
    Succeeds c outer (a.tidy c) fun g noted a' => a.Becomes c (!outer.isEmpty) g noted a' := by
  match a with
  | ⟨target, reference, owner, indices, regularPush, argumentName⟩ =>
    refine (owner.tidy_becomes c outer).bind fun owner' first => ?_
    refine (tidyOptionalExprs_become c outer indices).bind fun indices' second => ?_
    refine (c.finishAccess_succeeds outer _).imp ?_
    rintro g noted a' ⟨rfl, rfl⟩ hindices howner
    exact .intro howner hindices rfl
termination_by structural a

/-- Tidying expressions one after another. -/
theorem tidyExprs_become (c : Config) (outer : Scopes) (es : List Expr) :
    Succeeds c outer (tidyExprs c es)
      fun g noted es' => ExprsBecome c (!outer.isEmpty) g es noted es' := by
  match es with
  | [] => exact .pure fun g => .nil
  | e :: es =>
    refine (e.tidy_becomes c outer).bind fun e' first => ?_
    exact (tidyExprs_become c outer es).map fun g second es' hes he => .cons he hes
termination_by structural es

/-- What expressions that may be missing become. -/
theorem tidyOptionalExprs_become (c : Config) (outer : Scopes) (es : Option (List Expr)) :
    Succeeds c outer (tidyOptionalExprs c es)
      fun g noted es' => OptionalExprsBecome c (!outer.isEmpty) g es noted es' := by
  match es with
  | none => exact .pure fun g => .none
  | some es => exact (tidyExprs_become c outer es).map fun _ _ _ hes => .some hes
termination_by structural es

/-- What an expression that may be missing becomes. -/
theorem tidyOptionalExpr_becomes (c : Config) (outer : Scopes) (e : Option Expr) :
    Succeeds c outer (tidyOptionalExpr c e)
      fun g noted e' => OptionalExprBecomes c (!outer.isEmpty) g e noted e' := by
  match e with
  | none => exact .pure fun g => .none
  | some e => exact (e.tidy_becomes c outer).map fun _ _ _ he => .some he
termination_by structural e

/-- Tidying a statement. -/
theorem Stmt.tidy_becomes (c : Config) (outer : Scopes) (s : Stmt) :
    Succeeds c outer (s.tidy c) fun g noted s' => s.Becomes c (!outer.isEmpty) g noted s' := by
  match s with
  | .block block => exact (block.tidy_becomes c outer).map fun _ _ _ hblock => .block hblock
  | .eval value => exact (value.tidy_becomes c outer).map fun _ _ _ hvalue => .eval hvalue
  | .assign target value =>
    refine (target.tidy_becomes c outer).bind fun target' first => ?_
    exact (value.tidy_becomes c outer).map fun g second value' hvalue htarget =>
      Config.assign_becomes htarget hvalue
  | .static target value =>
    refine (target.tidy_becomes c outer).bind fun target' first => ?_
    exact (value.tidy_becomes c outer).map fun g second value' hvalue htarget =>
      .static htarget hvalue
  | .ret value => exact (value.tidy_becomes c outer).map fun _ _ _ hvalue => .ret hvalue
  | .branch condition thenPart elsePart =>
    refine (condition.tidy_becomes c outer).bind fun condition' first => ?_
    refine (thenPart.tidy_becomes c outer).bind fun thenPart' second => ?_
    exact (tidyOptionalBlock_becomes c outer elsePart).map
      fun g third elsePart' helse hthen hcondition => .branch hcondition hthen helse
  | .loop condition body =>
    refine (condition.tidy_becomes c outer).bind fun condition' first => ?_
    exact (body.tidy_becomes c outer).map fun g second body' hbody hcondition =>
      .loop hcondition hbody
  | .guarded body cleanup =>
    refine (body.tidy_becomes c outer).bind fun body' first => ?_
    exact (tidyOptionalBlock_becomes c outer cleanup).map fun g second cleanup' hcleanup hbody =>
      .guarded hbody hcleanup
  | .routine r =>
    refine (r.tidy_becomes c outer r.fragment.structArguments).map fun g noted r' hr => ?_
    obtain ⟨rfl, hr⟩ := hr
    exact .routine hr
  | .exit => exact .pure fun g => .exit
  | .leave => exact .pure fun g => .leave
  | .again => exact .pure fun g => .again
  | .locals names => exact .pure fun g => .locals
  | .enum declaration => exact .pure fun g => .enum
termination_by structural s

/-- What a block becomes: its statements, one after another. -/
theorem Block.tidy_becomes (c : Config) (outer : Scopes) (block : Block) :
    Succeeds c outer (block.tidy c)
      fun g noted block' => block.Becomes c (!outer.isEmpty) g noted block' := by
  match block with
  | ⟨statements, braced⟩ =>
    exact (tidyStmts_become c outer statements).map fun _ _ _ hstatements => .intro hstatements
termination_by structural block

/-- What a block that may be missing becomes. -/
theorem tidyOptionalBlock_becomes (c : Config) (outer : Scopes) (block : Option Block) :
    Succeeds c outer (tidyOptionalBlock c block)
      fun g noted block' => OptionalBlockBecomes c (!outer.isEmpty) g block noted block' := by
  match block with
  | none => exact .pure fun g => .none
  | some block => exact (block.tidy_becomes c outer).map fun _ _ _ hblock => .some hblock
termination_by structural block

/-- What statements become. Those that are tidied first keep their names while the scope grows. -/
theorem tidyStmts_become (c : Config) (outer : Scopes) (ss : List Stmt) :
    Succeeds c outer (tidyStmts c ss)
      fun g noted ss' => StmtsBecome c (!outer.isEmpty) g ss noted ss' := by
  match ss with
  | [] => exact .pure fun g => .nil
  | s :: ss =>
    refine (s.tidy_becomes c outer).bind fun s' first => ?_
    exact (tidyStmts_become c outer ss).map fun g second ss' hss hs => .cons hs hss
termination_by structural ss

/-- Tidying a routine, with values for its struct arguments. Nothing is noted around it. -/
theorem Routine.tidy_becomes (c : Config) (outer : Scopes) (r : Routine)
    (values : Option (List Expr)) :
    Succeeds c outer (r.tidy c values) fun _ noted r' => noted = [] ∧ r.Becomes c values r' := by
  match r with
  | ⟨name, isConstructor, body, fragment, defaults, parameters, blankBefore, blankAfter⟩ =>
    intro f
    let start : Fragment := { fragment with structArguments := values }
    obtain ⟨body', first, hbody, hbodyBecomes⟩ := body.tidy_becomes c (f :: outer) start
    let middle := c.noteAll true start first
    obtain ⟨parentCall', second, hparent, hparentBecomes⟩ :=
      fragment.tidyParentCall_becomes c (f :: outer) middle
    let g := c.noteAll true middle second
    have hg : g = c.noteAll true start (first ++ second) := (Config.noteAll_append first second).symm
    have hbodyRun : body.tidy c (start :: f :: outer) = .ok (body', middle :: f :: outer) := hbody
    have hparentRun : fragment.tidyParentCall c (middle :: f :: outer) =
      .ok (parentCall', g :: f :: outer) := hparent
    have hbody' := hbodyBecomes g (Config.grows_noteAll second)
    have hparent' := hparentBecomes g (.refl False g)
    refine ⟨_, [], ?_, fun _ _ => ⟨rfl, .intro hg hbody' hparent'⟩⟩
    simp only [Routine.tidy, Tidying.enter, hbodyRun, hparentRun, Tidying.leave, bind, StateT.bind,
      Except.bind, pure_apply, modify_apply, start]
    rfl
termination_by structural r

/-- Tidying the values of a struct literal. -/
theorem Routine.tidyArguments_become (c : Config) (outer : Scopes) (r : Routine) :
    Succeeds c outer (r.tidyArguments c) fun g noted values =>
      OptionalExprsBecome c (!outer.isEmpty) g r.fragment.structArguments noted values := by
  match r with
  | ⟨_, _, _, fragment, _, _, _, _⟩ => exact fragment.tidyArguments_become c outer
termination_by structural r

/-- What the values of a struct literal become, in the scope around it. -/
theorem Fragment.tidyArguments_become (c : Config) (outer : Scopes) (f : Fragment) :
    Succeeds c outer (f.tidyArguments c) fun g noted values =>
      OptionalExprsBecome c (!outer.isEmpty) g f.structArguments noted values := by
  match f with
  | ⟨_, _, _, _, _, _, _, _, _, _, _, structArguments, _⟩ =>
    exact tidyOptionalExprs_become c outer structArguments
termination_by structural f

/-- Tidying the call of the parent constructor. -/
theorem Fragment.tidyParentCall_becomes (c : Config) (outer : Scopes) (f : Fragment) :
    Succeeds c outer (f.tidyParentCall c) fun g noted parentCall =>
      OptionalExprBecomes c (!outer.isEmpty) g f.parentCall noted parentCall := by
  match f with
  | ⟨_, _, _, _, _, _, _, _, _, _, _, _, parentCall⟩ =>
    exact tidyOptionalExpr_becomes c outer parentCall
termination_by structural f

end

end GmlDecompiler

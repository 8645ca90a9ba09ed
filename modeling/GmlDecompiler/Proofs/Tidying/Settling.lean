import GmlDecompiler.Proofs.Building.Functions
import GmlDecompiler.Proofs.Tidying.Correspondence

/-!
# Trees that tidying leaves alone

Where no function is declared, a tidied tree is settled: an integer that was read is none any more,
parentheses that are there are not put again, and an argument that was noted keeps its name. No
change opens the way for another one, so that tidying a second time changes neither the tree nor the
scopes.
-/

namespace GmlDecompiler

/-- No function is declared in an expression, and no struct literal stands in it. -/
abbrev Expr.DeclarationFree (e : Expr) : Prop :=
  e.AllFunctions fun _ => False

/-- No function is declared in a statement, and no struct literal stands in it. -/
abbrev Stmt.DeclarationFree (s : Stmt) : Prop :=
  s.AllFunctions fun _ => False

/-- Being free of declarations is passed on by the parts of a tree. -/
theorem inherited_declarationFree :
    Inherited Expr.DeclarationFree (fun _ s => s.DeclarationFree)
      (fun r => False ∧ r.AllFunctions fun _ => False)
      (fun r => False ∧ r.AllFunctions fun _ => False) :=
  inherited_allFunctions fun _ _ hfalse => hfalse

/-- An expression without declarations is no routine itself. -/
theorem Expr.DeclarationFree.routine?_eq_none {e : Expr} (he : e.DeclarationFree) :
    e.shape.routine? = none := by
  by_contra hroutine
  obtain ⟨r, hr⟩ := Option.ne_none_iff_exists'.mp hroutine
  exact (he.routine hr).1

section Repeating

variable (c : Config)

/-- What an integer is read as is no integer. -/
theorem Reading.apply_apply (enums : List EnumDef) (reading : Reading) (e : Expr) :
    reading.apply enums (reading.apply enums e) = reading.apply enums e := by
  cases hread : e.integer?.bind (reading.resolve? enums) with
  | none => simp only [apply, hread]
  | some shape =>
    have hinteger : ({ e with shape := shape } : Expr).integer? = none := by
      obtain ⟨value, -, hvalue⟩ := Option.bind_eq_some_iff.mp hread
      unfold resolve? at hvalue
      split at hvalue <;> obtain ⟨x, -, rfl⟩ := Option.map_eq_some_iff.mp hvalue <;> rfl
    simp only [apply, hread, hinteger, Option.bind_none]

namespace Expr

/-- Parentheses do not change how tightly an expression binds. They only make up for it. -/
theorem strength?_groupIf (condition : Bool) (e : Expr) :
    (e.groupIf condition).strength? = e.strength? := rfl

/-- Parentheses are put once. -/
theorem groupIf_groupIf (condition : Bool) (e : Expr) :
    (e.groupIf condition).groupIf condition = e.groupIf condition := by
  simp only [groupIf, Bool.or_assoc, Bool.or_self]

/-- What was read is no integer any more, so it is not read again. -/
theorem readBy_readBy (reading : Option Reading) (e : Expr) :
    (e.readBy c reading).readBy c reading = e.readBy c reading := by
  cases reading with
  | none => rfl
  | some reading => exact reading.apply_apply c.enums e

/-- Parentheses do not keep an integer from being read. -/
theorem readBy_groupIf (reading : Option Reading) (condition : Bool) (e : Expr) :
    (e.groupIf condition).readBy c reading = (e.readBy c reading).groupIf condition := by
  cases reading with
  | none => rfl
  | some reading =>
    have hinteger : (e.groupIf condition).integer? = e.integer? := rfl
    simp only [readBy, Option.elim_some, Reading.apply, hinteger]
    cases e.integer?.bind (reading.resolve? c.enums) with
    | none => rfl
    | some shape => rfl

/-- An atom is no access. -/
theorem access?_of_isAtom {e : Expr} (hatom : e.shape.isAtom = true) : e.access? = none := by
  unfold access?
  split
  · rename_i hshape
    rw [hshape] at hatom
    cases hatom
  · rfl

/-- Reading leaves variables alone and makes none. -/
theorem access?_readBy (reading : Option Reading) (e : Expr) :
    (e.readBy c reading).access? = e.access? := by
  cases haccess : e.access? with
  | none =>
    rcases e.readBy_redrawn c reading with hsame | hatom
    · rw [← haccess]
      simp only [access?, hsame]
    · exact access?_of_isAtom hatom
  | some a => rw [readBy_of_access c haccess, haccess]

end Expr

namespace Config

/-- Operands that were read and grouped stay as they are. -/
theorem operands_operands (operator : Instruction) (left right : Expr) :
    c.operands operator (c.operands operator left right).1 (c.operands operator left right).2 =
      c.operands operator left right := by
  have hreading (e : Expr) (reading : Option Reading) (condition : Bool) :
      c.operandReading? operator ((e.readBy c reading).groupIf condition) =
        c.operandReading? operator e := by
    have haccess : ((e.readBy c reading).groupIf condition).access? = e.access? :=
      e.access?_readBy c reading
    simp only [operandReading?, variableReading?, haccess]
  simp only [c.operands_eq_groupOperands, groupOperands, hreading, Expr.readBy_groupIf,
    Expr.readBy_readBy, Expr.strength?_groupIf, Expr.groupIf_groupIf]

/-- Arguments that were read stay as they are. -/
theorem readArguments_readArguments (function : String) (es : List Expr) :
    c.readings.readArguments c.enums function (c.readings.readArguments c.enums function es) =
      c.readings.readArguments c.enums function es := by
  simp only [c.readArguments_eq, List.mapIdx_mapIdx]
  congr 1
  funext index e
  exact e.readBy_readBy c _

/-- A condition of a chain gets parentheses once. -/
theorem groupCondition_groupCondition (e : Expr) :
    groupCondition (groupCondition e) = groupCondition e := by
  cases hshape : e.shape with
  | chain logic conditions =>
    have hgrouped : (e.groupIf true).shape = .chain logic conditions := hshape
    simp only [groupCondition, hshape, hgrouped, Expr.groupIf_groupIf]
  | int16 | int32 | int64 | double | string | boolean | keyword | function | constant | access
  | unary | binary | call | callValue | construct | routine | struct =>
    simp only [groupCondition, hshape]

/-- An assignment of anything but a function stays one, with its value read. -/
theorem assign_of_routine?_eq_none {target value : Expr} (hvalue : value.shape.routine? = none) :
    c.assign target value = .assign target (value.readBy c (c.variableReading? target)) := by
  unfold assign
  dsimp only
  rw [c.readBeside_getD]
  split
  · rename_i r hshape
    rcases value.readBy_redrawn c (c.variableReading? target) with hsame | hatom
    · rw [← hsame, hshape] at hvalue
      cases hvalue
    · rw [hshape] at hatom
      cases hatom
  · rfl

/-- Finishing an access that was finished changes nothing. -/
theorem finishAccess_settles (outer : Scopes) (a : Access) :
    Succeeds c outer (c.finishAccess a) fun g _ a' => a'.owner = a.owner ∧ a'.indices = a.indices ∧
      c.finishAccess a' (g :: outer) = .ok (a', g :: outer) := by
  intro f
  obtain ⟨a', noted, hrun, hlater⟩ := c.finishAccess_succeeds outer a f
  refine ⟨a', noted, hrun, fun g hgrows => ?_⟩
  obtain ⟨rfl, rfl⟩ := hlater g hgrows
  refine ⟨rfl, rfl, ?_⟩
  let shown : Access := { a with argumentName := c.nameShown (!outer.isEmpty) g a }
  have hindex : shown.argumentIndex? = a.argumentIndex? := rfl
  have hnoted : c.noteAll (!outer.isEmpty) g a.argumentIndex?.toList = g := by
    cases hnumber : a.argumentIndex? with
    | none => rfl
    | some index =>
      rw [hnumber] at hgrows
      exact note_of_grows hgrows
  have hname : c.nameShown (!outer.isEmpty) g shown = shown.argumentName := nameShown_nameShown a
  have hagain := c.finishAccess_notes shown g outer (.refl False _)
  rwa [hindex, hnoted, hname] at hagain

end Config

end Repeating

/-- A shape that tidying leaves alone, and the scopes as well. -/
structure Shape.Settled (c : Config) (scopes : Scopes) (shape : Shape) : Prop where
  free : (Expr.ofShape shape).DeclarationFree
  tidy_eq : shape.tidy c scopes = .ok (shape, scopes)

/-- An expression that tidying leaves alone, and the scopes as well. -/
structure Expr.Settled (c : Config) (scopes : Scopes) (e : Expr) : Prop where
  free : e.DeclarationFree
  tidy_eq : e.tidy c scopes = .ok (e, scopes)

/-- A statement that tidying leaves alone, and the scopes as well. -/
structure Stmt.Settled (c : Config) (scopes : Scopes) (s : Stmt) : Prop where
  free : s.DeclarationFree
  tidy_eq : s.tidy c scopes = .ok (s, scopes)

section Settled

variable {c : Config} {scopes : Scopes}

/-- An atom is settled. -/
theorem Shape.settled_of_isAtom {shape : Shape} (hatom : shape.isAtom = true) :
    shape.Settled c scopes := by
  obtain ⟨hparts, hroutine⟩ := Shape.parts_of_isAtom hatom
  refine ⟨inherited_declarationFree.ofShape (by simp [hparts]) hroutine, ?_⟩
  cases shape with
  | int16 | int32 | int64 | double | string | boolean | keyword | function | constant => rfl
  | access | unary | binary | call | callValue | construct | chain | routine | struct =>
    cases hatom

/-- Where no value stands for a variable, it is the shape that matters. -/
theorem Expr.settled_iff {g : Fragment} {outer : Scopes} (hvalues : g.structArguments = none)
    {e : Expr} : e.Settled c (g :: outer) ↔ e.shape.Settled c (g :: outer) := by
  have hnone : e.shape.substitute? (g :: outer) = none := Shape.substitute?_eq_none hvalues
  constructor
  · rintro ⟨hfree, hrun⟩
    refine ⟨inherited_declarationFree.of_shape_eq hfree rfl, ?_⟩
    rcases Expr.tidy_eq_ok hrun with hvalue | ⟨-, shape', hshape, hsame⟩
    · rw [hnone] at hvalue
      cases hvalue
    · have hkept : shape' = e.shape := (congrArg Expr.shape hsame).symm
      rwa [hkept] at hshape
  · rintro ⟨hfree, hrun⟩
    refine ⟨inherited_declarationFree.of_shape_eq hfree rfl, ?_⟩
    rw [Expr.tidy_of_shape hnone hrun]
    cases e
    rfl

/-- Neither parentheses nor reading unsettle an expression. -/
theorem Expr.Settled.redrawn {g : Fragment} {outer : Scopes} (hvalues : g.structArguments = none)
    {e e' : Expr} (he : e.Settled c (g :: outer)) (hredrawn : e.Redrawn e') :
    e'.Settled c (g :: outer) := by
  rw [Expr.settled_iff hvalues] at he ⊢
  rcases hredrawn with hsame | hatom
  · rwa [hsame]
  · exact Shape.settled_of_isAtom hatom

/-- Expressions that are settled stay, and so do the scopes. -/
theorem tidyExprs_of_settled {es : List Expr} (hes : ∀ e ∈ es, e.Settled c scopes) :
    tidyExprs c es scopes = .ok (es, scopes) := by
  induction es with
  | nil => rfl
  | cons e es ih =>
    obtain ⟨he, hrest⟩ := List.forall_mem_cons.mp hes
    exact Tidying.bind_eq he.tidy_eq (Tidying.bind_eq (ih hrest) rfl)

/-- Statements that are settled stay, and so do the scopes. -/
theorem tidyStmts_of_settled {ss : List Stmt} (hss : ∀ s ∈ ss, s.Settled c scopes) :
    tidyStmts c ss scopes = .ok (ss, scopes) := by
  induction ss with
  | nil => rfl
  | cons s ss ih =>
    obtain ⟨hs, hrest⟩ := List.forall_mem_cons.mp hss
    exact Tidying.bind_eq hs.tidy_eq (Tidying.bind_eq (ih hrest) rfl)

/-- A block of settled statements. -/
theorem Block.tidy_of_settled {block : Block}
    (hblock : ∀ s ∈ block.statements, s.Settled c scopes) :
    block.tidy c scopes = .ok (block, scopes) := by
  obtain ⟨statements, braced⟩ := block
  exact Tidying.bind_eq (tidyStmts_of_settled hblock) rfl

/-- A block that may be missing stays if its statements are settled. -/
theorem tidyOptionalBlock_of_settled {block : Option Block}
    (hblock : ∀ s ∈ (block.map (·.statements)).getD [], s.Settled c scopes) :
    tidyOptionalBlock c block scopes = .ok (block, scopes) := by
  cases block with
  | none => rfl
  | some block => exact Tidying.bind_eq (Block.tidy_of_settled hblock) rfl

/-- Expressions that may be missing stay if they are settled. -/
theorem tidyOptionalExprs_of_settled {es : Option (List Expr)}
    (hes : ∀ e ∈ es.getD [], e.Settled c scopes) :
    tidyOptionalExprs c es scopes = .ok (es, scopes) := by
  cases es with
  | none => rfl
  | some es => exact Tidying.bind_eq (tidyExprs_of_settled hes) rfl

end Settled

mutual

/-- Tidying an expression. -/
theorem Expr.tidy_settles (c : Config) (outer : Scopes) (e : Expr) (he : e.DeclarationFree) :
    Succeeds c outer (e.tidy c)
      fun g _ e' => g.structArguments = none → e'.Settled c (g :: outer) := by
  match e with
  | ⟨shape, duplicated, grouped, slot⟩ =>
    have hshape : (Expr.ofShape shape).DeclarationFree :=
      inherited_declarationFree.of_shape_eq he rfl
    intro f
    cases hvalue : shape.substitute? (f :: outer) with
    | some v =>
      refine ⟨v, [], ?_, fun g hgrows hnone => ?_⟩
      · simp only [Expr.tidy, hvalue, bind, StateT.bind, Except.bind, pure_apply, get_apply,
          Config.noteAll_nil]
      · -- there is a value only inside of a struct literal
        have hgrows : f.Grows False g := hgrows
        rw [hgrows.structArguments_eq] at hnone
        rw [Shape.substitute?_eq_none hnone] at hvalue
        cases hvalue
    | none =>
      obtain ⟨shape', noted, hrun, hsettled⟩ := shape.tidy_settles c outer hshape f
      refine ⟨⟨shape', duplicated, grouped, slot⟩, noted, ?_, fun g hgrows hnone => ?_⟩
      · simp only [Expr.tidy, hvalue, hrun, bind, StateT.bind, Except.bind, pure_apply, get_apply]
      · exact (Expr.settled_iff hnone).mpr (hsettled g hgrows hnone)
termination_by structural e

/-- Tidying a shape. -/
theorem Shape.tidy_settles (c : Config) (outer : Scopes) (shape : Shape)
    (hshape : (Expr.ofShape shape).DeclarationFree) :
    Succeeds c outer (shape.tidy c)
      fun g _ shape' => g.structArguments = none → shape'.Settled c (g :: outer) := by
  have hparts : ∀ part ∈ shape.parts, part.DeclarationFree :=
    fun _ => inherited_declarationFree.part hshape
  match shape with
  | .access a =>
    obtain ⟨howner, hindices⟩ := List.forall_mem_cons.mp hparts
    refine (a.tidy_settles c outer howner hindices).map fun g _ a' ha hnone => ?_
    obtain ⟨hfree, hrun⟩ := ha hnone
    exact ⟨hfree, Tidying.bind_eq hrun rfl⟩
  | .unary operator operand =>
    refine (operand.tidy_settles c outer (hparts operand List.mem_cons_self)).map
      fun g _ operand' hoperand hnone => ?_
    have hgrouped := (hoperand hnone).redrawn hnone
      (Expr.groupIf_redrawn operand'.strength?.isSome operand')
    have hfree := List.forall_mem_singleton.mpr hgrouped.free
    refine ⟨inherited_declarationFree.ofShape hfree rfl, ?_⟩
    refine Tidying.bind_eq hgrouped.tidy_eq ?_
    rw [Expr.strength?_groupIf, Expr.groupIf_groupIf]
    rfl
  | .binary operator left right =>
    obtain ⟨hleft, hright⟩ := List.forall_mem_cons.mp hparts
    refine (left.tidy_settles c outer hleft).bind fun left' _ => ?_
    refine (right.tidy_settles c outer (hright right List.mem_cons_self)).map
      fun g _ right' hright' hleft' hnone => ?_
    obtain ⟨hfirst, hsecond⟩ := c.operands_redrawn operator left' right'
    have hleft'' := (hleft' hnone).redrawn hnone hfirst
    have hright'' := (hright' hnone).redrawn hnone hsecond
    have hlast := List.forall_mem_singleton.mpr hright''.free
    have hfree := List.forall_mem_cons.mpr ⟨hleft''.free, hlast⟩
    refine ⟨inherited_declarationFree.ofShape hfree rfl, ?_⟩
    refine Tidying.bind_eq hleft''.tidy_eq ?_
    refine Tidying.bind_eq hright''.tidy_eq ?_
    rw [c.operands_operands]
    rfl
  | .call function arguments =>
    refine (tidyExprs_settles c outer arguments hparts).map
      fun g _ arguments' harguments hnone => ?_
    have hread : ∀ e ∈ c.readings.readArguments c.enums function arguments',
        e.Settled c (g :: outer) := by
      intro e' he'
      obtain ⟨e, he, hredrawn⟩ := Readings.exists_of_mem_readArguments he'
      exact (harguments hnone e he).redrawn hnone hredrawn
    refine ⟨inherited_declarationFree.ofShape (fun e he => (hread e he).free) rfl, ?_⟩
    refine Tidying.bind_eq (tidyExprs_of_settled hread) ?_
    rw [c.readArguments_readArguments]
    rfl
  | .callValue callee self arguments =>
    obtain ⟨hcallee, hrest⟩ := List.forall_mem_cons.mp hparts
    obtain ⟨hself, harguments⟩ := List.forall_mem_cons.mp hrest
    refine (callee.tidy_settles c outer hcallee).bind fun callee' _ => ?_
    refine (self.tidy_settles c outer hself).bind fun self' _ => ?_
    refine (tidyExprs_settles c outer arguments harguments).map
      fun g _ arguments' harguments' hself' hcallee' hnone => ?_
    have hlast := fun e he => (harguments' hnone e he).free
    have hothers := List.forall_mem_cons.mpr ⟨(hself' hnone).free, hlast⟩
    have hfree := List.forall_mem_cons.mpr ⟨(hcallee' hnone).free, hothers⟩
    refine ⟨inherited_declarationFree.ofShape hfree rfl, ?_⟩
    refine Tidying.bind_eq (hcallee' hnone).tidy_eq ?_
    refine Tidying.bind_eq (hself' hnone).tidy_eq ?_
    exact Tidying.bind_eq (tidyExprs_of_settled (harguments' hnone)) rfl
  | .construct callee arguments =>
    obtain ⟨hcallee, harguments⟩ := List.forall_mem_cons.mp hparts
    refine (callee.tidy_settles c outer hcallee).bind fun callee' _ => ?_
    refine (tidyExprs_settles c outer arguments harguments).map
      fun g _ arguments' harguments' hcallee' hnone => ?_
    have hlast := fun e he => (harguments' hnone e he).free
    have hfree := List.forall_mem_cons.mpr ⟨(hcallee' hnone).free, hlast⟩
    refine ⟨inherited_declarationFree.ofShape hfree rfl, ?_⟩
    refine Tidying.bind_eq (hcallee' hnone).tidy_eq ?_
    exact Tidying.bind_eq (tidyExprs_of_settled (harguments' hnone)) rfl
  | .chain logic conditions =>
    refine (tidyExprs_settles c outer conditions hparts).map
      fun g _ conditions' hconditions hnone => ?_
    have hgrouped : ∀ e ∈ conditions'.map Config.groupCondition, e.Settled c (g :: outer) := by
      intro e' he'
      obtain ⟨e, he, rfl⟩ := List.mem_map.mp he'
      exact (hconditions hnone e he).redrawn hnone (Config.groupCondition_redrawn e)
    refine ⟨inherited_declarationFree.ofShape (fun e he => (hgrouped e he).free) rfl, ?_⟩
    refine Tidying.bind_eq (tidyExprs_of_settled hgrouped) ?_
    rw [List.map_map, Function.comp_def]
    simp only [Config.groupCondition_groupCondition]
    rfl
  | .routine r => exact (hshape.routine rfl).1.elim
  | .struct r => exact (hshape.routine rfl).1.elim
  | .int16 _ | .int32 _ | .int64 _ | .double _ | .string _ | .boolean _ | .keyword _
  | .function _ | .constant _ => exact .pure fun _ _ => Shape.settled_of_isAtom rfl
termination_by structural shape

/-- Tidying a variable access. -/
theorem Access.tidy_settles (c : Config) (outer : Scopes) (a : Access)
    (howner : a.owner.DeclarationFree) (hindices : ∀ e ∈ a.indices.getD [], e.DeclarationFree) :
    Succeeds c outer (a.tidy c) fun g _ a' => g.structArguments = none →
      (Expr.ofShape (.access a')).DeclarationFree ∧
        a'.tidy c (g :: outer) = .ok (a', g :: outer) := by
  match a with
  | ⟨target, reference, owner, indices, regularPush, argumentName⟩ =>
    refine (owner.tidy_settles c outer howner).bind fun owner' _ => ?_
    refine (tidyOptionalExprs_settles c outer indices hindices).bind fun indices' _ => ?_
    refine (c.finishAccess_settles outer _).imp ?_
    rintro g _ ⟨_, _, _, _, _, _⟩ ⟨rfl, rfl, hfinish⟩ hindices' howner' hnone
    refine ⟨inherited_declarationFree.access (howner' hnone).free
      fun e he => (hindices' hnone e he).free, ?_⟩
    refine Tidying.bind_eq (howner' hnone).tidy_eq ?_
    exact Tidying.bind_eq (tidyOptionalExprs_of_settled (hindices' hnone)) hfinish
termination_by structural a

/-- Tidying expressions one after another. -/
theorem tidyExprs_settles (c : Config) (outer : Scopes) (es : List Expr)
    (hes : ∀ e ∈ es, e.DeclarationFree) :
    Succeeds c outer (tidyExprs c es)
      fun g _ es' => g.structArguments = none → ∀ e ∈ es', e.Settled c (g :: outer) := by
  match es with
  | [] => exact .pure fun _ _ => List.forall_mem_nil _
  | e :: es =>
    obtain ⟨he, hes⟩ := List.forall_mem_cons.mp hes
    refine (e.tidy_settles c outer he).bind fun e' _ => ?_
    exact (tidyExprs_settles c outer es hes).map fun g _ es' hes' he' hnone =>
      List.forall_mem_cons.mpr ⟨he' hnone, hes' hnone⟩
termination_by structural es

/-- Expressions that may be missing are settled once they are tidied. -/
theorem tidyOptionalExprs_settles (c : Config) (outer : Scopes) (es : Option (List Expr))
    (hes : ∀ e ∈ es.getD [], e.DeclarationFree) :
    Succeeds c outer (tidyOptionalExprs c es)
      fun g _ es' => g.structArguments = none → ∀ e ∈ es'.getD [], e.Settled c (g :: outer) := by
  match es with
  | none => exact .pure fun _ _ => List.forall_mem_nil _
  | some es => exact (tidyExprs_settles c outer es hes).map fun _ _ _ hes' => hes'
termination_by structural es

/-- Tidying a statement. -/
theorem Stmt.tidy_settles (c : Config) (outer : Scopes) (s : Stmt) (hs : s.DeclarationFree) :
    Succeeds c outer (s.tidy c)
      fun g _ s' => g.structArguments = none → s'.Settled c (g :: outer) := by
  have hexprs : ∀ e ∈ s.exprs, e.DeclarationFree := hs.exprs
  have hinner : ∀ t ∈ s.inner, t.DeclarationFree := hs.inner
  match s with
  | .block block =>
    refine (block.tidy_settles c outer hinner).map fun g _ block' hblock hnone => ?_
    have hfree := fun t ht => (hblock hnone t ht).free
    have hrun := Block.tidy_of_settled (hblock hnone)
    exact ⟨.of_parts rfl (List.forall_mem_nil _) hfree, Tidying.bind_eq hrun rfl⟩
  | .eval value =>
    refine (value.tidy_settles c outer (hexprs value List.mem_cons_self)).map
      fun g _ value' hvalue hnone => ?_
    obtain ⟨hfree, hrun⟩ := hvalue hnone
    have hparts := List.forall_mem_singleton.mpr hfree
    exact ⟨.of_parts rfl hparts (List.forall_mem_nil _), Tidying.bind_eq hrun rfl⟩
  | .assign target value =>
    obtain ⟨htarget, hvalue⟩ := List.forall_mem_cons.mp hexprs
    refine (target.tidy_settles c outer htarget).bind fun target' _ => ?_
    refine (value.tidy_settles c outer (hvalue value List.mem_cons_self)).map
      fun g _ value' hvalue' htarget' hnone => ?_
    have hread := (hvalue' hnone).redrawn hnone
      (value'.readBy_redrawn c (c.variableReading? target'))
    have hlast := List.forall_mem_singleton.mpr hread.free
    have hparts := List.forall_mem_cons.mpr ⟨(htarget' hnone).free, hlast⟩
    rw [c.assign_of_routine?_eq_none (hvalue' hnone).free.routine?_eq_none]
    refine ⟨.of_parts rfl hparts (List.forall_mem_nil _), ?_⟩
    refine Tidying.bind_eq (htarget' hnone).tidy_eq ?_
    refine Tidying.bind_eq hread.tidy_eq ?_
    rw [c.assign_of_routine?_eq_none hread.free.routine?_eq_none, Expr.readBy_readBy]
    rfl
  | .static target value =>
    obtain ⟨htarget, hvalue⟩ := List.forall_mem_cons.mp hexprs
    refine (target.tidy_settles c outer htarget).bind fun target' _ => ?_
    refine (value.tidy_settles c outer (hvalue value List.mem_cons_self)).map
      fun g _ value' hvalue' htarget' hnone => ?_
    have hlast := List.forall_mem_singleton.mpr (hvalue' hnone).free
    have hparts := List.forall_mem_cons.mpr ⟨(htarget' hnone).free, hlast⟩
    refine ⟨.of_parts rfl hparts (List.forall_mem_nil _), ?_⟩
    refine Tidying.bind_eq (htarget' hnone).tidy_eq ?_
    exact Tidying.bind_eq (hvalue' hnone).tidy_eq rfl
  | .ret value =>
    refine (value.tidy_settles c outer (hexprs value List.mem_cons_self)).map
      fun g _ value' hvalue hnone => ?_
    obtain ⟨hfree, hrun⟩ := hvalue hnone
    have hparts := List.forall_mem_singleton.mpr hfree
    exact ⟨.of_parts rfl hparts (List.forall_mem_nil _), Tidying.bind_eq hrun rfl⟩
  | .branch condition thenPart elsePart =>
    obtain ⟨hthen, helse⟩ := List.forall_mem_append.mp hinner
    refine (condition.tidy_settles c outer (hexprs condition List.mem_cons_self)).bind
      fun condition' _ => ?_
    refine (thenPart.tidy_settles c outer hthen).bind fun thenPart' _ => ?_
    refine (tidyOptionalBlock_settles c outer elsePart helse).map
      fun g _ elsePart' helse' hthen' hcondition hnone => ?_
    have hparts := List.forall_mem_singleton.mpr (hcondition hnone).free
    have hfirst := fun t ht => (hthen' hnone t ht).free
    have hsecond := fun t ht => (helse' hnone t ht).free
    refine ⟨.of_parts rfl hparts (List.forall_mem_append.mpr ⟨hfirst, hsecond⟩), ?_⟩
    refine Tidying.bind_eq (hcondition hnone).tidy_eq ?_
    refine Tidying.bind_eq (Block.tidy_of_settled (hthen' hnone)) ?_
    exact Tidying.bind_eq (tidyOptionalBlock_of_settled (helse' hnone)) rfl
  | .loop condition body =>
    refine (condition.tidy_settles c outer (hexprs condition List.mem_cons_self)).bind
      fun condition' _ => ?_
    refine (body.tidy_settles c outer hinner).map fun g _ body' hbody hcondition hnone => ?_
    have hparts := List.forall_mem_singleton.mpr (hcondition hnone).free
    have hfree := fun t ht => (hbody hnone t ht).free
    refine ⟨.of_parts rfl hparts hfree, ?_⟩
    refine Tidying.bind_eq (hcondition hnone).tidy_eq ?_
    exact Tidying.bind_eq (Block.tidy_of_settled (hbody hnone)) rfl
  | .guarded body cleanup =>
    obtain ⟨hbody, hcleanup⟩ := List.forall_mem_append.mp hinner
    refine (body.tidy_settles c outer hbody).bind fun body' _ => ?_
    refine (tidyOptionalBlock_settles c outer cleanup hcleanup).map
      fun g _ cleanup' hcleanup' hbody' hnone => ?_
    have hfirst := fun t ht => (hbody' hnone t ht).free
    have hsecond := fun t ht => (hcleanup' hnone t ht).free
    have hfree := List.forall_mem_append.mpr ⟨hfirst, hsecond⟩
    refine ⟨.of_parts rfl (List.forall_mem_nil _) hfree, ?_⟩
    refine Tidying.bind_eq (Block.tidy_of_settled (hbody' hnone)) ?_
    exact Tidying.bind_eq (tidyOptionalBlock_of_settled (hcleanup' hnone)) rfl
  | .routine r => exact (hs.routine rfl).1.elim
  | .exit | .leave | .again | .locals _ | .enum _ =>
    exact .pure fun _ _ =>
      ⟨.of_parts rfl (List.forall_mem_nil _) (List.forall_mem_nil _), rfl⟩
termination_by structural s

/-- The statements of a block are settled once they are tidied. -/
theorem Block.tidy_settles (c : Config) (outer : Scopes) (block : Block)
    (hblock : ∀ s ∈ block.statements, s.DeclarationFree) :
    Succeeds c outer (block.tidy c) fun g _ block' => g.structArguments = none →
      ∀ s ∈ block'.statements, s.Settled c (g :: outer) := by
  match block with
  | ⟨statements, braced⟩ =>
    exact (tidyStmts_settles c outer statements hblock).map fun _ _ _ hstatements => hstatements
termination_by structural block

/-- The statements of a block that may be missing are settled once they are tidied. -/
theorem tidyOptionalBlock_settles (c : Config) (outer : Scopes) (block : Option Block)
    (hblock : ∀ s ∈ (block.map (·.statements)).getD [], s.DeclarationFree) :
    Succeeds c outer (tidyOptionalBlock c block) fun g _ block' => g.structArguments = none →
      ∀ s ∈ (block'.map (·.statements)).getD [], s.Settled c (g :: outer) := by
  match block with
  | none => exact .pure fun _ _ => List.forall_mem_nil _
  | some block => exact (block.tidy_settles c outer hblock).map fun _ _ _ hblock' => hblock'
termination_by structural block

/-- Statements are settled once they are tidied. The first ones stay settled while the others are
tidied, since the scope only grows. -/
theorem tidyStmts_settles (c : Config) (outer : Scopes) (ss : List Stmt)
    (hss : ∀ s ∈ ss, s.DeclarationFree) :
    Succeeds c outer (tidyStmts c ss)
      fun g _ ss' => g.structArguments = none → ∀ s ∈ ss', s.Settled c (g :: outer) := by
  match ss with
  | [] => exact .pure fun _ _ => List.forall_mem_nil _
  | s :: ss =>
    obtain ⟨hs, hss⟩ := List.forall_mem_cons.mp hss
    refine (s.tidy_settles c outer hs).bind fun s' _ => ?_
    exact (tidyStmts_settles c outer ss hss).map fun g _ ss' hss' hs' hnone =>
      List.forall_mem_cons.mpr ⟨hs' hnone, hss' hnone⟩
termination_by structural ss

end

/-- Outside of struct literals, an expression or a statement without declarations that was tidied is
not changed when it is tidied again in the scopes that it was left in. The scopes are not changed
either. -/
theorem tidy_idempotent (c : Config) (outer : Scopes) {f : Fragment}
    (hvalues : f.structArguments = none) :
    (∀ e : Expr, e.DeclarationFree → ∃ e' scopes,
        e.tidy c (f :: outer) = .ok (e', scopes) ∧ e'.tidy c scopes = .ok (e', scopes)) ∧
      ∀ s : Stmt, s.DeclarationFree → ∃ s' scopes,
        s.tidy c (f :: outer) = .ok (s', scopes) ∧ s'.tidy c scopes = .ok (s', scopes) := by
  have hleft (noted : List Nat) :
      (c.noteAll (!outer.isEmpty) f noted).structArguments = none :=
    (Config.structArguments_noteAll noted).trans hvalues
  constructor
  · intro e he
    obtain ⟨e', noted, hrun, hsettled⟩ := e.tidy_settles c outer he f
    exact ⟨e', _, hrun, (hsettled _ (.refl False _) (hleft noted)).tidy_eq⟩
  · intro s hs
    obtain ⟨s', noted, hrun, hsettled⟩ := s.tidy_settles c outer hs f
    exact ⟨s', _, hrun, (hsettled _ (.refl False _) (hleft noted)).tidy_eq⟩

namespace Sample

/-- A game in which the values of `state` are members of an enum. -/
def readsStates : Config where
  readings := { byVariable := (∅ : Table String Reading).insert "state" (.member "State") }
  enums := [⟨"State", [⟨"Idle", 0⟩, ⟨"Walk", 1⟩]⟩]

/-- A variable that is no array. -/
def bare (name : String) (owner : Instance) : Expr :=
  .ofShape (.access { target := ⟨name, owner⟩, owner := .ofShape (.keyword owner) })

/-- The condition `state == 1`. -/
def stateIsOne : Expr :=
  .ofShape (.binary (.compare .equal .variable .int16) (bare "state" .own) (.ofShape (.int16 1)))

/-- The statement `if (state == 1) state = argument0`. -/
def leavesWalk : Stmt :=
  .branch stateIsOne ⟨[.assign (bare "state" .own) (bare "argument0" .argument)], true⟩ none

/-- A bare variable declares nothing. -/
theorem bare_free (name : String) (owner : Instance) : (bare name owner).DeclarationFree :=
  inherited_declarationFree.access (inherited_declarationFree.ofShape (List.forall_mem_nil _) rfl)
    (List.forall_mem_nil _)

/-- The statement declares nothing. -/
theorem leavesWalk_free : leavesWalk.DeclarationFree := by
  have hone : (Expr.ofShape (.int16 1)).DeclarationFree :=
    inherited_declarationFree.ofShape (List.forall_mem_nil _) rfl
  have hcondition : stateIsOne.DeclarationFree :=
    inherited_declarationFree.ofShape (List.forall_mem_cons.mpr
      ⟨bare_free _ _, List.forall_mem_singleton.mpr hone⟩) rfl
  have hassign : (Stmt.assign (bare "state" .own) (bare "argument0" .argument)).DeclarationFree :=
    .of_parts rfl (List.forall_mem_cons.mpr
      ⟨bare_free _ _, List.forall_mem_singleton.mpr (bare_free _ _)⟩) (List.forall_mem_nil _)
  exact .of_parts rfl (List.forall_mem_singleton.mpr hcondition)
    (List.forall_mem_singleton.mpr hassign)

end Sample

open Sample

/-- The statement is tidied in a function, and a second time without any change. -/
theorem tidy_idempotent_leavesWalk :
    ({} : Fragment).structArguments = none ∧ leavesWalk.DeclarationFree ∧
      ∃ s' scopes, leavesWalk.tidy readsStates [{}, {}] = .ok (s', scopes) ∧
        s'.tidy readsStates scopes = .ok (s', scopes) :=
  ⟨rfl, leavesWalk_free, (tidy_idempotent readsStates [{}] rfl).2 leavesWalk leavesWalk_free⟩

end GmlDecompiler

import GmlDecompiler.Proofs.Faults
import GmlDecompiler.Proofs.Naming.Decompiled

/-!
# Jumps in a tidied tree

Tidying changes what statements are made of, but it puts no statement into or out of a loop. Values
that are put in the place of arguments bring the functions in them along, so the values of all
scopes around a place have to be looked at too.
-/

namespace GmlDecompiler

/-- In every function in an expression, jumps lie in the bodies of loops. -/
abbrev Expr.Fitting (e : Expr) : Prop :=
  e.AllFunctions Routine.JumpsFit

/-- In every function in a statement, jumps lie in the bodies of loops. -/
abbrev Stmt.Fitting (s : Stmt) : Prop :=
  s.AllFunctions Routine.JumpsFit

/-- In a routine and in every function in it, jumps lie in the bodies of loops. -/
abbrev Routine.Fitting (r : Routine) : Prop :=
  r.JumpsFit ∧ r.AllFunctions Routine.JumpsFit

/-- In every function in the values of the scopes, jumps lie in the bodies of loops. -/
def Scopes.ValuesFit (scopes : Scopes) : Prop :=
  ∀ f ∈ scopes, ∀ e ∈ f.structArguments.getD [], e.Fitting

/-- That all jumps fit is inherited from the parts: a loop gives its body a loop, and a function
starts without one. -/
theorem inherited_fitting :
    Inherited Expr.Fitting (fun _ s => s.Fitting) Routine.Fitting Routine.Fitting :=
  inherited_allFunctions fun _ _ hfits => hfits

/-- A routine as a value. -/
theorem Routine.fitting_expr {r : Routine} (hr : r.Fitting) {shape : Shape}
    (hparts : ∀ part ∈ shape.parts, part.Fitting) (hroutine : shape.routine? = some r) :
    (Expr.ofShape shape).Fitting := by
  refine .intro hparts ?_ ?_
  · intro other hother
    obtain rfl : r = other := Option.some.inj (hroutine.symm.trans hother)
    exact hr.1
  · intro other hother
    obtain rfl : r = other := Option.some.inj (hroutine.symm.trans hother)
    exact hr.2

/-- A routine as a declaration. -/
theorem Routine.fitting_stmt {r : Routine} (hr : r.Fitting) : (Stmt.routine r).Fitting := by
  refine .intro (List.forall_mem_nil _) (List.forall_mem_nil _) ?_ ?_
  · rintro other ⟨⟩
    exact hr.1
  · rintro other ⟨⟩
    exact hr.2

section Scopes

/-- A value that stands for a variable is one of the values of the innermost scope. -/
theorem Scopes.ValuesFit.substitute? {scopes : Scopes} (hscopes : scopes.ValuesFit) {shape : Shape}
    {e : Expr} (hvalue : shape.substitute? scopes = some e) : e.Fitting := by
  cases scopes with
  | nil =>
    unfold Shape.substitute? at hvalue
    split at hvalue
    · obtain ⟨index, -, hvalue⟩ := Option.bind_eq_some_iff.mp hvalue
      cases hvalue
    · cases hvalue
  | cons f outer =>
    obtain ⟨es, hes, hmem⟩ := Shape.substitute?_eq_some hvalue
    refine hscopes f List.mem_cons_self e ?_
    rw [hes]
    exact hmem

/-- Finishing an access keeps its parts and the values of the scopes. -/
theorem Config.finishAccess_fits (c : Config) (a : Access) :
    Keeps Scopes.ValuesFit (c.finishAccess a)
      fun a' => a'.owner = a.owner ∧ a'.indices = a.indices := by
  intro scopes hscopes a' scopes' hrun
  cases scopes with
  | nil =>
    unfold Config.finishAccess at hrun
    cases hindex : a.argumentIndex? with
    | none =>
      rw [hindex] at hrun
      cases hrun
      exact ⟨hscopes, rfl, rfl⟩
    | some index =>
      rw [hindex] at hrun
      cases hrun
  | cons f outer =>
    obtain ⟨b, f', hfinish, hgrows, -, howner, hindices, -⟩ := c.finishAccess_spec a outer f
    cases hfinish.symm.trans hrun
    refine ⟨List.forall_mem_cons.mpr ⟨?_, fun g hg => hscopes g (List.mem_cons_of_mem _ hg)⟩,
      howner, hindices⟩
    rw [hgrows.structArguments_eq]
    exact hscopes f List.mem_cons_self

/-- Entering a scope whose values fit. -/
theorem Tidying.enter_fits {f : Fragment}
    (hvalues : ∀ e ∈ f.structArguments.getD [], e.Fitting) :
    Keeps Scopes.ValuesFit (Tidying.enter f) fun _ => True :=
  .modify fun _ hscopes => List.forall_mem_cons.mpr ⟨hvalues, hscopes⟩

/-- The values of a scope that is left fit, as those of all scopes do. -/
theorem Tidying.leave_fits :
    Keeps Scopes.ValuesFit Tidying.leave
      fun f => ∀ e ∈ f.structArguments.getD [], e.Fitting := by
  intro scopes hscopes f scopes' hrun
  cases scopes with
  | nil => cases hrun
  | cons g outer =>
    cases hrun
    exact ⟨fun h hh => hscopes h (List.mem_cons_of_mem _ hh), hscopes _ List.mem_cons_self⟩

end Scopes

section Finish

/-- The value of a default comes from a statement. -/
theorem Stmt.fitting_of_defaultCheck? {s : Stmt} (hs : s.Fitting) {p : Nat × Expr}
    (hcheck : s.defaultCheck? = some p) : p.2.Fitting := by
  unfold Stmt.defaultCheck? at hcheck
  split at hcheck
  · rename_i condition target value _
    split at hcheck
    · split at hcheck
      · obtain ⟨index, -, hcheck⟩ := Option.bind_eq_some_iff.mp hcheck
        split at hcheck
        · cases hcheck
          have hassign := hs.inner (.assign target value) List.mem_cons_self
          exact hassign.exprs value (by simp [Stmt.exprs])
        · cases hcheck
      · cases hcheck
    · cases hcheck
  · cases hcheck

/-- Folding checks into defaults only drops statements. -/
theorem Routine.mem_of_mem_foldDefaults {r : Routine} {s : Stmt}
    (hs : s ∈ r.foldDefaults.body.statements) : s ∈ r.body.statements := by
  rcases List.mem_append.mp hs with hbefore | hrest
  · exact (List.takeWhile_sublist _).subset hbefore
  · exact (List.dropWhile_sublist _).subset ((foldChecks_spec _ _ _).2 s hrest)

/-- Folding moves values out of branches, which are in no loop, and drops statements. -/
theorem Routine.fitting_foldDefaults {r : Routine} (hr : r.Fitting) : r.foldDefaults.Fitting := by
  obtain ⟨hown, hbody, hparent, hdefaults, hvalues⟩ := hr
  refine ⟨fun s hs => hown s (mem_of_mem_foldDefaults hs), .intro
    (fun s hs => hbody s (mem_of_mem_foldDefaults hs)) hparent (fun p hp => ?_) hvalues⟩
  rcases (foldChecks_spec _ _ _).1 p hp with hold | ⟨s, hs, hcheck⟩
  · exact hdefaults p hold
  · exact Stmt.fitting_of_defaultCheck? (hbody s ((List.dropWhile_sublist _).subset hs)) hcheck

/-- Finishing a routine puts no statement into it. -/
theorem Config.fitting_finishRoutine (c : Config) {r : Routine} (hr : r.Fitting) :
    (c.finishRoutine r).Fitting := by
  cases hstruct : r.fragment.isStruct with
  | true =>
    rw [c.finishRoutine_of_isStruct hstruct]
    exact hr
  | false =>
    have heq := c.finishRoutine_eq hstruct
    have hfold : (c.foldRoutine r).Fitting := by
      unfold Config.foldRoutine
      split
      · exact Routine.fitting_foldDefaults hr
      · exact hr
    have hgrows := c.grows_parameters r.fragment.parameterCount 0 r.fragment True
    have hfragment := c.foldRoutine_fragment r
    obtain ⟨hown, hbody, hparent, hdefaults, hvalues⟩ := hfold
    rw [hfragment] at hparent hvalues
    rw [heq]
    refine ⟨hown, .intro hbody ?_ hdefaults ?_⟩
    · dsimp only
      rw [hgrows.parentCall_eq]
      exact hparent
    · dsimp only
      rw [hgrows.structArguments_eq]
      exact hvalues

end Finish

/-- Statements stand in the place of others: in every function in them jumps lie in the bodies of
loops, and their own jumps do where those of the others did. -/
structure FitAs (ss ss' : List Stmt) : Prop where
  fitting : ∀ s ∈ ss', s.Fitting
  jumps : ∀ looped, (∀ s ∈ ss, s.JumpsFit looped) → ∀ s ∈ ss', s.JumpsFit looped

namespace FitAs

variable {ss ss' tt tt' : List Stmt} {s s' : Stmt}

/-- Statements fit as they do. -/
theorem refl (hss : ∀ s ∈ ss, s.Fitting) : FitAs ss ss :=
  ⟨hss, fun _ hjumps => hjumps⟩

/-- No statements fit as no statements do. -/
theorem nil : FitAs [] [] :=
  .refl (List.forall_mem_nil _)

/-- Statements in a row fit as others in a row, part by part. -/
theorem append (hss : FitAs ss ss') (htt : FitAs tt tt') : FitAs (ss ++ tt) (ss' ++ tt') where
  fitting := List.forall_mem_append.mpr ⟨hss.fitting, htt.fitting⟩
  jumps looped hjumps := by
    obtain ⟨hfirst, hsecond⟩ := List.forall_mem_append.mp hjumps
    exact List.forall_mem_append.mpr ⟨hss.jumps looped hfirst, htt.jumps looped hsecond⟩

/-- A statement with nothing but expressions and routines in it may stand anywhere. -/
theorem leaf (hs' : s'.Fitting) (hjump : s'.isJump = false) (hinner : s'.inner = []) :
    FitAs ss [s'] :=
  ⟨List.forall_mem_singleton.mpr hs',
    fun looped _ => List.forall_mem_singleton.mpr (.leaf hjump hinner looped)⟩

/-- A statement in the place of another one of its kind, with the statements in it standing in the
places of those in the other. -/
theorem compound (hinner : FitAs s.inner s'.inner) (hexprs : ∀ e ∈ s'.exprs, e.Fitting)
    (hroutine : s'.routine? = none) (hjump : s'.isJump = false) (hloop : s'.isLoop = s.isLoop) :
    FitAs [s] [s'] where
  fitting :=
    List.forall_mem_singleton.mpr (.of_parts hroutine hexprs hinner.fitting)
  jumps looped hjumps := by
    cases hjumps s List.mem_cons_self with
    | intro _ hold =>
      refine List.forall_mem_singleton.mpr (.intro ?_ ?_)
      · rw [hjump]
        exact nofun
      · rw [hloop]
        exact hinner.jumps _ hold

end FitAs

mutual

/-- Tidying an expression. -/
theorem Expr.tidy_fits (c : Config) (e : Expr) (he : e.Fitting) :
    Keeps Scopes.ValuesFit (e.tidy c) Expr.Fitting := by
  match e with
  | ⟨shape, duplicated, grouped, slot⟩ =>
    refine .bind .get fun scopes hscopes => ?_
    split
    · rename_i hvalue
      exact .pure (hscopes.substitute? hvalue)
    · have hshape : (Expr.ofShape shape).Fitting := inherited_fitting.of_shape_eq he rfl
      exact .bind (shape.tidy_fits c hshape) fun shape' hshape' =>
        .pure (inherited_fitting.of_shape_eq hshape' rfl)
termination_by structural e

/-- Tidying a shape. -/
theorem Shape.tidy_fits (c : Config) (shape : Shape) (hshape : (Expr.ofShape shape).Fitting) :
    Keeps Scopes.ValuesFit (shape.tidy c) fun shape' => (Expr.ofShape shape').Fitting := by
  have hparts : ∀ part ∈ shape.parts, part.Fitting := fun _ => inherited_fitting.part hshape
  match shape with
  | .access a =>
    obtain ⟨howner, hindices⟩ := List.forall_mem_cons.mp hparts
    exact .bind (a.tidy_fits c howner hindices) fun a' ⟨howner', hindices'⟩ =>
      .pure (inherited_fitting.access howner' hindices')
  | .unary operator operand =>
    refine .bind (operand.tidy_fits c (hparts operand List.mem_cons_self)) fun operand' h => ?_
    have hgrouped := inherited_fitting.of_redrawn h
      (Expr.groupIf_redrawn operand'.strength?.isSome operand')
    exact .pure (inherited_fitting.ofShape (List.forall_mem_singleton.mpr hgrouped) rfl)
  | .binary operator left right =>
    obtain ⟨hleft, hright⟩ := List.forall_mem_cons.mp hparts
    refine .bind (left.tidy_fits c hleft) fun left' hleft' => ?_
    refine .bind (right.tidy_fits c (hright right List.mem_cons_self)) fun right' hright' => ?_
    obtain ⟨hfirst, hsecond⟩ := c.operands_redrawn operator left' right'
    have hleft'' := inherited_fitting.of_redrawn hleft' hfirst
    have hright'' := List.forall_mem_singleton.mpr (inherited_fitting.of_redrawn hright' hsecond)
    have hoperands := List.forall_mem_cons.mpr ⟨hleft'', hright''⟩
    exact .pure (inherited_fitting.ofShape hoperands rfl)
  | .call function arguments =>
    refine .bind (tidyExprs_fits c arguments hparts) fun arguments' harguments => ?_
    refine .pure (inherited_fitting.ofShape (fun e' he' => ?_) rfl)
    obtain ⟨e, he, hredrawn⟩ := Readings.exists_of_mem_readArguments he'
    exact inherited_fitting.of_redrawn (harguments e he) hredrawn
  | .callValue callee self arguments =>
    obtain ⟨hcallee, hrest⟩ := List.forall_mem_cons.mp hparts
    obtain ⟨hself, harguments⟩ := List.forall_mem_cons.mp hrest
    refine .bind (callee.tidy_fits c hcallee) fun callee' hcallee' => ?_
    refine .bind (self.tidy_fits c hself) fun self' hself' => ?_
    refine .bind (tidyExprs_fits c arguments harguments) fun arguments' harguments' => ?_
    have hothers := List.forall_mem_cons.mpr ⟨hself', harguments'⟩
    have hparts' := List.forall_mem_cons.mpr ⟨hcallee', hothers⟩
    exact .pure (inherited_fitting.ofShape hparts' rfl)
  | .construct callee arguments =>
    obtain ⟨hcallee, harguments⟩ := List.forall_mem_cons.mp hparts
    refine .bind (callee.tidy_fits c hcallee) fun callee' hcallee' => ?_
    refine .bind (tidyExprs_fits c arguments harguments) fun arguments' harguments' => ?_
    exact .pure (inherited_fitting.ofShape (List.forall_mem_cons.mpr ⟨hcallee', harguments'⟩) rfl)
  | .chain logic conditions =>
    refine .bind (tidyExprs_fits c conditions hparts) fun conditions' hconditions => ?_
    refine .pure (inherited_fitting.ofShape (fun e' he' => ?_) rfl)
    obtain ⟨e, he, rfl⟩ := List.mem_map.mp he'
    exact inherited_fitting.of_redrawn (hconditions e he) (Config.groupCondition_redrawn e)
  | .routine routine =>
    have hroutine : routine.Fitting := hshape.routine rfl
    exact .bind (routine.tidy_fits c _ hroutine hroutine.2.values) fun routine' hroutine' =>
      .pure (Routine.fitting_expr hroutine' (List.forall_mem_nil _) rfl)
  | .struct routine =>
    have hroutine : routine.Fitting := hshape.routine rfl
    refine .bind (routine.tidyArguments_fits c hroutine.2.values) fun values hvalues => ?_
    exact .bind (routine.tidy_fits c values hroutine hvalues) fun routine' hroutine' =>
      .pure (Routine.fitting_expr hroutine' hroutine'.2.values rfl)
  | .int16 _ | .int32 _ | .int64 _ | .double _ | .string _ | .boolean _ | .keyword _
  | .function _ | .constant _ => exact .pure hshape
termination_by structural shape

/-- Tidying a variable access. -/
theorem Access.tidy_fits (c : Config) (a : Access) (howner : a.owner.Fitting)
    (hindices : ∀ e ∈ a.indices.getD [], e.Fitting) :
    Keeps Scopes.ValuesFit (a.tidy c)
      fun a' => a'.owner.Fitting ∧ ∀ e ∈ a'.indices.getD [], e.Fitting := by
  match a with
  | ⟨target, reference, owner, indices, regularPush, argumentName⟩ =>
    refine .bind (owner.tidy_fits c howner) fun owner' howner' => ?_
    refine .bind (tidyOptionalExprs_fits c indices hindices) fun indices' hindices' => ?_
    refine (c.finishAccess_fits _).imp fun a' ⟨hownerKept, hindicesKept⟩ => ?_
    rw [hownerKept, hindicesKept]
    exact ⟨howner', hindices'⟩
termination_by structural a

/-- Tidying expressions one after another. -/
theorem tidyExprs_fits (c : Config) (es : List Expr) (hes : ∀ e ∈ es, e.Fitting) :
    Keeps Scopes.ValuesFit (tidyExprs c es) fun es' => ∀ e ∈ es', e.Fitting := by
  match es with
  | [] => exact .pure (List.forall_mem_nil _)
  | e :: es =>
    obtain ⟨he, hes⟩ := List.forall_mem_cons.mp hes
    refine .bind (e.tidy_fits c he) fun e' he' => ?_
    exact .bind (tidyExprs_fits c es hes) fun es' hes' =>
      .pure (List.forall_mem_cons.mpr ⟨he', hes'⟩)
termination_by structural es

/-- Expressions that may be missing fit after they are tidied. -/
theorem tidyOptionalExprs_fits (c : Config) (es : Option (List Expr))
    (hes : ∀ e ∈ es.getD [], e.Fitting) :
    Keeps Scopes.ValuesFit (tidyOptionalExprs c es) fun es' => ∀ e ∈ es'.getD [], e.Fitting := by
  match es with
  | none => exact .pure (List.forall_mem_nil _)
  | some es => exact .bind (tidyExprs_fits c es hes) fun es' hes' => .pure hes'
termination_by structural es

/-- An expression that may be missing fits after it is tidied. -/
theorem tidyOptionalExpr_fits (c : Config) (e : Option Expr) (he : ∀ x, e = some x → x.Fitting) :
    Keeps Scopes.ValuesFit (tidyOptionalExpr c e) fun e' => ∀ x, e' = some x → x.Fitting := by
  match e with
  | none => exact .pure nofun
  | some e =>
    refine .bind (e.tidy_fits c (he e rfl)) fun e' he' => .pure ?_
    rintro x ⟨⟩
    exact he'
termination_by structural e

/-- Tidying a statement. -/
theorem Stmt.tidy_fits (c : Config) (s : Stmt) (hs : s.Fitting) :
    Keeps Scopes.ValuesFit (s.tidy c) fun s' => FitAs [s] [s'] := by
  have hexprs := hs.exprs
  have hinner := hs.inner
  match s with
  | .block block =>
    refine .bind (block.tidy_fits c hinner) fun block' hblock => .pure ?_
    exact .compound hblock (List.forall_mem_nil _) rfl rfl rfl
  | .eval value =>
    refine .bind (value.tidy_fits c (hexprs value List.mem_cons_self)) fun value' hvalue => .pure ?_
    exact .compound .nil (List.forall_mem_singleton.mpr hvalue) rfl rfl rfl
  | .assign target value =>
    obtain ⟨htarget, hvalue⟩ := List.forall_mem_cons.mp hexprs
    refine .bind (target.tidy_fits c htarget) fun target' htarget' => ?_
    refine .bind (value.tidy_fits c (hvalue value List.mem_cons_self)) fun value' hvalue' =>
      .pure ?_
    obtain ⟨read, hredrawn, hassign⟩ := c.assign_eq target' value'
    have hread := inherited_fitting.of_redrawn hvalue' hredrawn
    rcases hassign with hassign | ⟨r, hshape, hassign⟩
    · rw [hassign]
      have hparts := List.forall_mem_cons.mpr ⟨htarget', List.forall_mem_singleton.mpr hread⟩
      exact .compound .nil hparts rfl rfl rfl
    · rw [hassign]
      have hr : read.shape.routine? = some r := by rw [hshape]; rfl
      exact .leaf (Routine.fitting_stmt (hread.routine hr)) rfl rfl
  | .static target value =>
    obtain ⟨htarget, hvalue⟩ := List.forall_mem_cons.mp hexprs
    refine .bind (target.tidy_fits c htarget) fun target' htarget' => ?_
    refine .bind (value.tidy_fits c (hvalue value List.mem_cons_self)) fun value' hvalue' =>
      .pure ?_
    have hparts := List.forall_mem_cons.mpr ⟨htarget', List.forall_mem_singleton.mpr hvalue'⟩
    exact .compound .nil hparts rfl rfl rfl
  | .ret value =>
    refine .bind (value.tidy_fits c (hexprs value List.mem_cons_self)) fun value' hvalue => .pure ?_
    exact .compound .nil (List.forall_mem_singleton.mpr hvalue) rfl rfl rfl
  | .branch condition thenPart elsePart =>
    obtain ⟨hthen, helse⟩ := List.forall_mem_append.mp hinner
    refine .bind (condition.tidy_fits c (hexprs condition List.mem_cons_self))
      fun condition' hcondition => ?_
    refine .bind (thenPart.tidy_fits c hthen) fun thenPart' hthen' => ?_
    refine .bind (tidyOptionalBlock_fits c elsePart helse) fun elsePart' helse' => .pure ?_
    exact .compound (hthen'.append helse') (List.forall_mem_singleton.mpr hcondition) rfl rfl rfl
  | .loop condition body =>
    refine .bind (condition.tidy_fits c (hexprs condition List.mem_cons_self))
      fun condition' hcondition => ?_
    refine .bind (body.tidy_fits c hinner) fun body' hbody => .pure ?_
    exact .compound hbody (List.forall_mem_singleton.mpr hcondition) rfl rfl rfl
  | .guarded body cleanup =>
    obtain ⟨hbody, hcleanup⟩ := List.forall_mem_append.mp hinner
    refine .bind (body.tidy_fits c hbody) fun body' hbody' => ?_
    refine .bind (tidyOptionalBlock_fits c cleanup hcleanup) fun cleanup' hcleanup' => .pure ?_
    exact .compound (hbody'.append hcleanup') (List.forall_mem_nil _) rfl rfl rfl
  | .routine routine =>
    have hroutine : routine.Fitting := hs.routine rfl
    exact .bind (routine.tidy_fits c _ hroutine hroutine.2.values) fun routine' hroutine' =>
      .pure (.leaf (Routine.fitting_stmt hroutine') rfl rfl)
  | .enum declaration =>
    exact .pure (.compound .nil (List.forall_mem_nil _) rfl rfl rfl)
  | .exit | .leave | .again | .locals _ =>
    exact .pure (.refl (List.forall_mem_singleton.mpr hs))
termination_by structural s

/-- The statements of a block fit as they did before. -/
theorem Block.tidy_fits (c : Config) (block : Block) (hblock : ∀ s ∈ block.statements, s.Fitting) :
    Keeps Scopes.ValuesFit (block.tidy c)
      fun block' => FitAs block.statements block'.statements := by
  match block with
  | ⟨statements, braced⟩ =>
    exact .bind (tidyStmts_fits c statements hblock) fun statements' hstatements =>
      .pure hstatements
termination_by structural block

/-- The statements of a block that may be missing fit as they did before. -/
theorem tidyOptionalBlock_fits (c : Config) (block : Option Block)
    (hblock : ∀ s ∈ (block.map (·.statements)).getD [], s.Fitting) :
    Keeps Scopes.ValuesFit (tidyOptionalBlock c block) fun block' =>
      FitAs ((block.map (·.statements)).getD []) ((block'.map (·.statements)).getD []) := by
  match block with
  | none => exact .pure .nil
  | some block => exact .bind (block.tidy_fits c hblock) fun block' hblock' => .pure hblock'
termination_by structural block

/-- Statements fit as they did before they were tidied, one after another. -/
theorem tidyStmts_fits (c : Config) (ss : List Stmt) (hss : ∀ s ∈ ss, s.Fitting) :
    Keeps Scopes.ValuesFit (tidyStmts c ss) fun ss' => FitAs ss ss' := by
  match ss with
  | [] => exact .pure .nil
  | s :: ss =>
    obtain ⟨hs, hss⟩ := List.forall_mem_cons.mp hss
    refine .bind (s.tidy_fits c hs) fun s' hs' => ?_
    exact .bind (tidyStmts_fits c ss hss) fun ss' hss' => .pure (hs'.append hss')
termination_by structural ss

/-- Tidying a routine, with values for its struct arguments. -/
theorem Routine.tidy_fits (c : Config) (r : Routine) (values : Option (List Expr))
    (hr : r.Fitting) (hvalues : ∀ e ∈ values.getD [], e.Fitting) :
    Keeps Scopes.ValuesFit (r.tidy c values) Routine.Fitting := by
  match r with
  | ⟨name, isConstructor, body, fragment, defaults, parameters, blankBefore, blankAfter⟩ =>
    obtain ⟨hown, hinside⟩ := hr
    refine .bind (Tidying.enter_fits hvalues) fun _ _ => ?_
    refine .bind (body.tidy_fits c hinside.body) fun body' hbody => ?_
    refine .bind (fragment.tidyParentCall_fits c hinside.parentCall) fun parentCall hparent => ?_
    refine .bind Tidying.leave_fits fun inner hinner => .pure (c.fitting_finishRoutine ⟨?_, ?_⟩)
    · exact hbody.jumps false hown
    · exact .intro hbody.fitting hparent hinside.defaults hinner
termination_by structural r

/-- Tidying the values of a struct literal. -/
theorem Routine.tidyArguments_fits (c : Config) (r : Routine)
    (hvalues : ∀ e ∈ r.fragment.structArguments.getD [], e.Fitting) :
    Keeps Scopes.ValuesFit (r.tidyArguments c) fun values => ∀ e ∈ values.getD [], e.Fitting := by
  match r with
  | ⟨_, _, _, fragment, _, _, _, _⟩ => exact fragment.tidyArguments_fits c hvalues
termination_by structural r

/-- The values of a struct literal fit after they are tidied. -/
theorem Fragment.tidyArguments_fits (c : Config) (f : Fragment)
    (hvalues : ∀ e ∈ f.structArguments.getD [], e.Fitting) :
    Keeps Scopes.ValuesFit (f.tidyArguments c) fun values => ∀ e ∈ values.getD [], e.Fitting := by
  match f with
  | ⟨_, _, _, _, _, _, _, _, _, _, _, structArguments, _⟩ =>
    exact tidyOptionalExprs_fits c structArguments hvalues
termination_by structural f

/-- Tidying the call of the parent constructor. -/
theorem Fragment.tidyParentCall_fits (c : Config) (f : Fragment)
    (hparent : ∀ e, f.parentCall = some e → e.Fitting) :
    Keeps Scopes.ValuesFit (f.tidyParentCall c) fun e' => ∀ x, e' = some x → x.Fitting := by
  match f with
  | ⟨_, _, _, _, _, _, _, _, _, _, _, _, parentCall⟩ =>
    exact tidyOptionalExpr_fits c parentCall hparent
termination_by structural f

end

/-- Declaring the enums puts no jump into the tree. -/
theorem Config.declareEnums_fits {c : Config} {root root' : Stmt} (hroot : root.Fitting)
    (hrun : c.declareEnums root = .ok root') : FitAs [root] [root'] := by
  unfold Config.declareEnums at hrun
  split at hrun
  · rename_i block
    cases hrun
    have henums : FitAs []
        (c.enums.map fun e => Stmt.enum (EnumDecl.tidy c { definition := e })) := by
      constructor
      · intro s hs
        obtain ⟨e, -, rfl⟩ := List.mem_map.mp hs
        exact Stmt.AllFunctions.of_parts rfl (List.forall_mem_nil _) (List.forall_mem_nil _)
      · intro looped _ s hs
        obtain ⟨e, -, rfl⟩ := List.mem_map.mp hs
        exact .leaf rfl rfl looped
    have hblock : FitAs block.statements block.statements := .refl hroot.inner
    refine .compound ?_ (List.forall_mem_nil _) rfl rfl rfl
    dsimp only [Stmt.inner]
    split
    · exact henums.append hblock
    · have happended := hblock.append henums
      rwa [List.append_nil] at happended
  · cases hrun

/-- Jumps are accepted exactly where they are legal. An entry is not built if a jump in it has, in
its own fragment, no loop around it with the jump in its body; and if there is no such jump,
building it does not fail for a jump. In an entry that is decompiled every jump lies in the body of
a loop of the same function, whichever function it is. -/
theorem jumps_accepted_iff_legal (c : Config) (entry : Entry) :
    (entry.jumpsFit = false → ∀ built, entry.build c.dialect ≠ .ok built) ∧
    (entry.jumpsFit = true → ∀ jump, entry.build c.dialect ≠ .error (.strayJump jump)) ∧
    ∀ d, c.decompile entry = .ok d →
      d.root.JumpsFit false ∧ d.root.AllFunctions Routine.JumpsFit := by
  refine ⟨?_, ?_, ?_⟩
  · intro hstray built hbuild
    rw [Entry.jumpsFit_of_build hbuild] at hstray
    cases hstray
  · intro hfits jump hbuild
    exact (entry.build_raises c.dialect _ hbuild).notStray hfits jump rfl
  · intro d hrun
    obtain ⟨block, f, root, f', hbuild, htidy, rfl⟩ := Config.decompile_eq_ok hrun
    have hbuilt := Entry.build_jumpsFit hbuild
    have hblock : (Stmt.block block).Fitting :=
      Stmt.AllFunctions.of_parts rfl (List.forall_mem_nil _) fun s hs => (hbuilt s hs).2
    have hjumps : (Stmt.block block).JumpsFit false :=
      .intro nofun fun s hs => (hbuilt s hs).1
    -- the scope of the entry has no values for struct arguments
    have hscopes : Scopes.ValuesFit [f] := by
      rw [Scopes.ValuesFit, List.forall_mem_singleton, (Entry.build_isNew hbuild).1.structArguments]
      exact List.forall_mem_nil _
    obtain ⟨⟨tidied, scopes⟩, hroot, htidy⟩ := exists_of_bind_eq_ok htidy
    obtain ⟨-, hfits⟩ := (Stmt.block block).tidy_fits c hblock [f] hscopes tidied scopes hroot
    obtain ⟨last, henums, hlast⟩ := exists_of_bind_eq_ok htidy
    have hlastFits := Config.declareEnums_fits (hfits.fitting tidied List.mem_cons_self) henums
    obtain rfl : last = root := by
      cases scopes with
      | nil => cases hlast
      | cons g outer =>
        cases hlast
        rfl
    have htidied := hfits.jumps false (List.forall_mem_singleton.mpr hjumps)
    exact ⟨hlastFits.jumps false htidied last List.mem_cons_self,
      hlastFits.fitting last List.mem_cons_self⟩

/-- A loop whose condition jumps is refused, although the loop stands in the body of another. -/
example :
    Entry.jumpsFit ⟨"gml_Script_f", 0, [.loop [.block ⟨0, [.pushImmediate 1]⟩]
      [.loop [.leave, .block ⟨0, [.pushImmediate 1]⟩] []]]⟩ = true ∧
    Entry.jumpsFit ⟨"gml_Script_f", 0, [.loop [.leave] []]⟩ = false ∧
    Entry.jumpsFit ⟨"gml_Script_f", 0, [.loop [] [.routine ⟨"gml_Script_g", none, false, 0⟩
      [.again]]]⟩ = false := by
  decide

end GmlDecompiler

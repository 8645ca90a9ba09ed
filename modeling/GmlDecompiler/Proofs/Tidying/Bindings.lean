import GmlDecompiler.Program
import GmlDecompiler.Proofs.FunctionNames.Binding
import GmlDecompiler.Proofs.Naming.Elements

/-!
# Functions that are bound to variables

A named function is bound by an assignment to a variable of its name, which tidying turns into the
declaration of the function. It looks at the name of the variable only. So an owner and indices are
dropped with the target: the declaration says as much as the assignment exactly if nothing but the
name was to be written for the target.
-/

namespace GmlDecompiler

/-- The access has no indices, and an owner that is not written. -/
def Access.IsBare (a : Access) : Prop :=
  a.indices = none ∧ ∃ i, a.owner.instance? = some i ∧ i.isImplicit = true

/-- No steps are written for an owner exactly if it is an instance that is understood. -/
theorem Expr.ownerSteps_eq_nil_iff (owner : Expr) :
    owner.ownerSteps = .ok [] ↔ ∃ i, owner.instance? = some i ∧ i.isImplicit = true := by
  unfold Expr.ownerSteps
  cases hinstance : owner.instance? with
  | some i => cases himplicit : i.isImplicit <;> simp [himplicit]
  | none => cases owner.steps <;> simp [bind, Except.bind]

/-- No steps are written for indices exactly if there are none. -/
theorem indexSteps_eq_nil_iff (indices : Option (List Expr)) :
    indexSteps indices = .ok [] ↔ indices = none := by
  cases indices with
  | none => simp [indexSteps]
  | some es =>
    rw [indexSteps]
    cases separatedSteps [.write ", "] es <;> simp [bind, Except.bind]

/-- The name of the variable is all that is written for an access, exactly if that is the name that
the access is shown by, or if there is no such name, no owner to be written and no index. -/
theorem Access.steps_eq_name_iff (a : Access) :
    a.steps = .ok [.write a.target.name] ↔
      a.argumentName = some a.target.name ∨ a.argumentName = none ∧ a.IsBare := by
  cases hname : a.argumentName with
  | some name => simp [Access.steps_of_name hname]
  | none =>
    rw [Access.steps_of_unnamed hname, Access.IsBare, ← Expr.ownerSteps_eq_nil_iff,
      ← indexSteps_eq_nil_iff]
    cases a.owner.ownerSteps with
    | error fault => simp [bind, Except.bind]
    | ok before =>
      cases indexSteps a.indices with
      | error fault => simp [bind, Except.bind]
      | ok indices => cases before <;> simp [bind, Except.bind, and_comm]

namespace Config

variable {c : Config} {target value : Expr} {r : Routine}

/-- An assignment is turned into a declaration exactly if its value is a routine that has the name
of the variable. The owner of the variable and its indices are not looked at. -/
theorem assign_eq_routine_iff :
    c.assign target value = .routine r ↔
      value.shape = .routine r ∧ ∃ a, target.access? = some a ∧ r.name = some a.target.name := by
  constructor
  · intro hassign
    -- a value that is read in another way is no routine afterwards
    have hredrawn := c.readBeside_getD_redrawn target value
    unfold Config.assign at hassign
    dsimp only at hassign
    split at hassign
    · rename_i routine hroutine
      have hvalue : value.shape = .routine routine := by
        rcases hredrawn with hsame | hatom
        · exact hsame.symm.trans hroutine
        · rw [hroutine] at hatom
          cases hatom
      split at hassign
      · rename_i hcondition
        cases hassign
        obtain ⟨hsome, hname⟩ := Bool.and_eq_true_iff.mp hcondition
        rw [beq_iff_eq] at hname
        rw [hname] at hsome
        obtain ⟨a, htarget⟩ := Option.isSome_iff_exists.mp (Option.isSome_map ▸ hsome)
        exact ⟨hvalue, a, htarget, by rw [hname, htarget, Option.map_some]⟩
      · cases hassign
    · cases hassign
  · rintro ⟨hvalue, a, htarget, hname⟩
    exact c.assign_routine htarget hvalue hname

end Config

/-- An assignment declares a routine exactly if its value, tidied, is a routine that has the name of
the variable. Then the name is all of the target that is left. It was all that was to be written for
the target exactly if the target is shown by that name, or has no name of its own, no owner to be
written and no index. -/
theorem binding_keeps_target_iff (c : Config) (target value : Expr) (f : Fragment)
    (outer : Scopes) :
    ∃ t v s f₁ f₂, target.tidy c (f :: outer) = .ok (t, f₁ :: outer) ∧
      value.tidy c (f₁ :: outer) = .ok (v, f₂ :: outer) ∧
      (Stmt.assign target value).tidy c (f :: outer) = .ok (s, f₂ :: outer) ∧
      (∀ r, s = .routine r ↔
        v.shape = .routine r ∧ ∃ a, t.access? = some a ∧ r.name = some a.target.name) ∧
      ∀ r, s = .routine r → ∃ a name, t.access? = some a ∧ r.name = some name ∧
        (a.steps = .ok [.write name] ↔
          a.argumentName = some name ∨ a.argumentName = none ∧ a.IsBare) := by
  obtain ⟨t, f₁, htarget, -⟩ := target.tidy_passes c outer f
  obtain ⟨v, f₂, hvalue, -⟩ := value.tidy_passes c outer f₁
  refine ⟨t, v, c.assign t v, f₁, f₂, htarget, hvalue,
    Tidying.bind_eq htarget (Tidying.bind_eq hvalue rfl), fun r => Config.assign_eq_routine_iff, ?_⟩
  intro r hdeclares
  obtain ⟨-, a, haccess, hname⟩ := Config.assign_eq_routine_iff.mp hdeclares
  exact ⟨a, a.target.name, haccess, hname, a.steps_eq_name_iff⟩

namespace Sample

/-- A function without parameters. -/
def helperRoutine : Routine where
  name := some "helper"
  body := ⟨[.exit], true⟩
  fragment := { codeName := "gml_Script_helper", name := some "helper" }

/-- The variable `helper`. -/
def helperVariable : Access :=
  ⟨⟨"helper", .own⟩, .normal, .ofShape (.keyword .own), none, false, none⟩

/-- The variables `global.helper`, `helper[0]` and `inst.helper`. -/
def helperPlaces : List Access :=
  [⟨⟨"helper", .global⟩, .normal, .ofShape (.keyword .global), none, false, none⟩,
    ⟨⟨"helper", .own⟩, .array, .ofShape (.keyword .own), some [.ofShape (.int16 0)], false, none⟩,
    ⟨⟨"helper", .own⟩, .stackTop,
      .ofShape (.access ⟨⟨"inst", .own⟩, .normal, .ofShape (.keyword .own), none, false, none⟩),
      none, false, none⟩]

/-- A script that declares the function and stores it in a variable, whose place the code puts on
the stack. -/
def storesHelper (place : List Instruction) (target : VarRef) (reference : Reference) : Entry where
  name := "gml_GlobalScript_setup"
  body := [.routine ⟨"gml_Script_helper", some "helper", false, 0⟩ [.block ⟨0, [.plain .exit]⟩],
    .block ⟨0, (Instruction.pushInt32 0).withFunction "gml_Script_helper" 0 ::
      .convert .int32 .variable :: place ++ [.popVariable target reference .variable]⟩]

end Sample

/-- The variable has neither an owner that is shown nor indices, so its name is all that was to be
written. -/
theorem binding_keeps_target_iff_helper :
    ∃ r f', (Stmt.assign (.ofShape (.access Sample.helperVariable))
        (.ofShape (.routine Sample.helperRoutine))).tidy {} [{}] = .ok (.routine r, [f']) ∧
      r.name = some "helper" ∧ Sample.helperVariable.steps = .ok [.write "helper"] := by
  obtain ⟨t, v, s, f₁, f₂, htarget, -, hassign, -, hkeeps⟩ :=
    binding_keeps_target_iff {} (.ofShape (.access Sample.helperVariable))
      (.ofShape (.routine Sample.helperRoutine)) {} []
  have hvalue : (Expr.ofShape (.routine Sample.helperRoutine)).shape =
    .routine Sample.helperRoutine := rfl
  obtain ⟨r, f', hrun, -, hname⟩ :=
    Stmt.tidy_assign_routine {} [] (f := {}) (a := Sample.helperVariable) rfl hvalue rfl
  cases hrun.symm.trans hassign
  -- a variable with nothing to tidy stays as it is
  have hsame : (Expr.ofShape (.access Sample.helperVariable)).tidy {} [{}] =
    .ok (.ofShape (.access Sample.helperVariable), [{}]) := rfl
  cases hsame.symm.trans htarget
  obtain ⟨a, name, haccess, hbound, hsteps⟩ := hkeeps r rfl
  cases haccess
  cases hname.symm.trans hbound
  exact ⟨r, f₂, hrun, hname, hsteps.mpr (.inr ⟨rfl, rfl, .own, rfl, rfl⟩)⟩

/-- A function that is assigned to `global.helper`, `helper[0]` or `inst.helper` is declared as
`helper`, and so it is in the text of each. -/
theorem binding_target_lost :
    (∀ a ∈ Sample.helperPlaces, ¬ a.IsBare ∧ a.argumentName = none ∧ ∃ r f',
      (Stmt.assign (.ofShape (.access a)) (.ofShape (.routine Sample.helperRoutine))).tidy {} [{}] =
        .ok (.routine r, [f']) ∧ r.name = some "helper") ∧
      ∀ entry ∈ [Sample.storesHelper [] ⟨"helper", .global⟩ .normal,
          Sample.storesHelper [.pushImmediate (-1), .pushImmediate 0] ⟨"helper", .own⟩ .array,
          Sample.storesHelper [.pushVariable .push ⟨"inst", .own⟩ .normal] ⟨"helper", .own⟩
            .stackTop],
        decompile entry = .ok "function helper() \x7b\n    exit;\n\x7d\n" := by
  refine ⟨fun a ha => ?_, by decide +kernel⟩
  have hplaces : ∀ a ∈ Sample.helperPlaces, a.target.name = "helper" ∧ a.argumentName = none ∧
      (a.indices = none → a.owner.instance?.all (!·.isImplicit)) := by
    intro a ha
    simp only [Sample.helperPlaces, List.mem_cons, List.not_mem_nil, or_false] at ha
    rcases ha with rfl | rfl | rfl
    · exact ⟨rfl, rfl, fun _ => rfl⟩
    · exact ⟨rfl, rfl, nofun⟩
    · exact ⟨rfl, rfl, fun _ => rfl⟩
  obtain ⟨htarget, hname, hshown⟩ := hplaces a ha
  refine ⟨?_, hname, ?_⟩
  · rintro ⟨hindices, i, howner, himplicit⟩
    have hwritten := hshown hindices
    rw [howner, Option.all_some, himplicit] at hwritten
    cases hwritten
  · have hvalue : (Expr.ofShape (.routine Sample.helperRoutine)).shape =
      .routine Sample.helperRoutine := rfl
    obtain ⟨r, f', hrun, -, hkept⟩ :=
      Stmt.tidy_assign_routine {} [] (f := {}) rfl hvalue (congrArg some htarget.symm)
    exact ⟨r, f', hrun, hkept⟩

end GmlDecompiler

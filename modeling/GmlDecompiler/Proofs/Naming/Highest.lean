import GmlDecompiler.Program
import GmlDecompiler.Proofs.Naming.Parameters
import GmlDecompiler.Proofs.Tidying.Noting

/-!
# The highest argument

A scope remembers the highest index of the arguments that are read in it, as a signed number of 32
bits. A higher index wraps around when it is noted. So the number is at least the index of an
argument that was read exactly if the index is at most `2 ^ 31 - 1`. A function gets one parameter
more than the number, exactly if that is not negative and a number of 32 bits as well.
-/

namespace GmlDecompiler

namespace Fragment

variable {f : Fragment}

/-- An index that was noted is not above the highest argument, unless it wrapped around. -/
theorem le_maxArgument_iff {index : Nat} (hnoted : Int32.ofNat index ≤ f.maxArgument) :
    (index : Int) ≤ f.maxArgument.toInt ↔ index ≤ indexLimit := by
  unfold indexLimit
  constructor
  · intro hle
    have hlt := f.maxArgument.toInt_lt
    omega
  · intro hsmall
    have hvalue : (Int32.ofNat index).toInt = index := Int32.toInt_ofNat_of_lt (by omega)
    rw [Int32.le_iff_toInt_le, hvalue] at hnoted
    exact hnoted

/-- There is one parameter more than the highest argument, unless that number is negative or wraps
around. -/
theorem parameterCount_eq_iff :
    (f.parameterCount : Int) = f.maxArgument.toInt + 1 ↔
      -1 ≤ f.maxArgument.toInt ∧ f.maxArgument.toInt < indexLimit := by
  have hlow := f.maxArgument.le_toInt
  rw [parameterCount_eq]
  by_cases hfits : f.maxArgument.toInt < indexLimit
  · rw [if_pos hfits]
    omega
  · rw [if_neg hfits]
    unfold indexLimit at hfits ⊢
    omega

end Fragment

/-- Outside of struct literals, tidying an access notes the argument that it reads. -/
theorem Access.tidy_notes (c : Config) {a : Access} {f : Fragment} (outer : Scopes) {index : Nat}
    (hindex : a.argumentIndex? = some index) (hvalues : f.structArguments = none) :
    ∃ a' f', a.tidy c (f :: outer) = .ok (a', f' :: outer) ∧ f.maxArgument ≤ f'.maxArgument ∧
      Int32.ofNat index ≤ f'.maxArgument := by
  match a with
  | ⟨target, reference, owner, indices, regularPush, argumentName⟩ =>
    obtain ⟨owner', f₁, howner, hpasses₁⟩ := owner.tidy_passes c outer f
    obtain ⟨indices', f₂, hindices, hpasses₂⟩ := tidyOptionalExprs_passes c indices outer f₁
    let tidied : Access := ⟨target, reference, owner', indices', regularPush, argumentName⟩
    have hnone : f₁.structArguments = none := hpasses₁.grows.structArguments_eq.trans hvalues
    have hsame : tidied.argumentIndex? = some index := by
      rw [← hindex]
      exact Access.argumentIndex?_of_tidyOptionalExprs hnone rfl hindices
    have hfinish := c.finishAccess_notes tidied f₂ outer (.refl False _)
    rw [hsame] at hfinish
    have hrun : Access.tidy c ⟨target, reference, owner, indices, regularPush, argumentName⟩
        (f :: outer) = c.finishAccess tidied (f₂ :: outer) := by
      simp only [Access.tidy, howner, hindices, bind, StateT.bind, Except.bind, tidied]
    refine ⟨_, c.note (!outer.isEmpty) f₂ index, hrun.trans hfinish, ?_,
      Config.le_maxArgument_note index⟩
    have hearlier := Int32.le_trans hpasses₁.grows.max_le hpasses₂.grows.max_le
    exact Int32.le_trans hearlier (Config.grows_note index).max_le

/-- Tidying a routine tidies its parts in a scope of their own, and finishes it. -/
theorem Routine.tidy_finishes (c : Config) (r : Routine) (values : Option (List Expr))
    (scopes : Scopes) :
    ∃ r', r.tidy c values scopes = .ok (c.finishRoutine r', scopes) ∧
      r'.fragment.isStruct = r.fragment.isStruct ∧
      r.fragment.maxArgument ≤ r'.fragment.maxArgument := by
  obtain ⟨name, isConstructor, body, fragment, defaults, parameters, blankBefore, blankAfter⟩ := r
  obtain ⟨body', f₁, hbody, hpasses₁⟩ :=
    body.tidy_passes c scopes { fragment with structArguments := values }
  obtain ⟨parentCall', f₂, hparent, hpasses₂⟩ := fragment.tidyParentCall_passes c scopes f₁
  have hgrows := (hpasses₁.append hpasses₂).grows
  refine ⟨⟨name, isConstructor, ⟨body'.statements, true⟩,
    { f₂ with parentCall := parentCall' }, defaults, parameters, blankBefore, blankAfter⟩,
    ?_, ?_, hgrows.max_le⟩
  · simp only [Routine.tidy, Tidying.enter, hbody, hparent, Tidying.leave, bind, StateT.bind,
      Except.bind, pure_apply, modify_apply]
  · have hname : f₂.codeName = fragment.codeName := by rw [hgrows.frame]
    simp only [Fragment.isStruct, hname]

/-- Outside of struct literals, tidying an access raises the highest argument of its scope to at
least the index that it reads, exactly if the index is at most `2 ^ 31 - 1`. A routine that is
tidied, and is no struct literal, has one parameter more than the highest argument of its scope,
exactly if that is `-1` or higher and below `2 ^ 31 - 1`. -/
theorem highest_argument_exact_iff (c : Config) :
    (∀ (e : Expr) (a : Access) (index : Nat) (f : Fragment) (outer : Scopes),
      e.shape = .access a → a.argumentIndex? = some index → f.structArguments = none →
      ∃ e' f', e.tidy c (f :: outer) = .ok (e', f' :: outer) ∧ f.maxArgument ≤ f'.maxArgument ∧
        ((index : Int) ≤ f'.maxArgument.toInt ↔ index ≤ Fragment.indexLimit)) ∧
    ∀ (r : Routine) (values : Option (List Expr)) (scopes : Scopes),
      r.fragment.isStruct = false →
      ∃ r', r.tidy c values scopes = .ok (r', scopes) ∧
        r.fragment.maxArgument ≤ r'.fragment.maxArgument ∧
        ((r'.parameters.length : Int) = r'.fragment.maxArgument.toInt + 1 ↔
          -1 ≤ r'.fragment.maxArgument.toInt ∧
            r'.fragment.maxArgument.toInt < Fragment.indexLimit) := by
  refine ⟨fun e a index f outer hshape hindex hvalues => ?_, fun r values scopes hstruct => ?_⟩
  · obtain ⟨a', f', hrun, hgrows, hnoted⟩ := a.tidy_notes c outer hindex hvalues
    refine ⟨{ e with shape := .access a' }, f', ?_, hgrows, Fragment.le_maxArgument_iff hnoted⟩
    apply Expr.tidy_of_shape (Shape.substitute?_eq_none hvalues)
    rw [hshape]
    exact Tidying.bind_eq hrun rfl
  · obtain ⟨r', hrun, hsame, hgrows⟩ := r.tidy_finishes c values scopes
    obtain ⟨hmax, hlength⟩ := c.finishRoutine_counts (hsame.trans hstruct)
    refine ⟨c.finishRoutine r', hrun, ?_, ?_⟩
    · rw [hmax]
      exact hgrows
    · rw [hmax, hlength]
      exact Fragment.parameterCount_eq_iff

namespace Sample

/-- An argument by its name. -/
def argumentOf (name : String) : Access :=
  ⟨⟨name, .argument⟩, .normal, .ofShape (.keyword .argument), none, false, none⟩

/-- A function with a highest argument. -/
def countedRoutine (highest : Int32) : Routine where
  name := some "f"
  body := ⟨[.exit], true⟩
  fragment := { codeName := "gml_Script_f", name := some "f", maxArgument := highest }

/-- A script with a function that returns an argument. -/
def returnsArgument (name : String) : Entry where
  name := "gml_GlobalScript_f"
  body := [.routine ⟨"gml_Script_f", some "f", false, 0⟩
    [.block ⟨0, [.pushVariable .push ⟨name, .argument⟩ .normal, .plain .ret]⟩]]

end Sample

/-- Reading the argument `5` raises the highest argument to it, and a function whose highest
argument is `2` has three parameters. -/
theorem highest_argument_exact_iff_five :
    (Sample.argumentOf "argument5").argumentIndex? = some 5 ∧
      (Sample.countedRoutine 2).fragment.isStruct = false ∧
      (∃ e' f', (Expr.ofShape (.access (Sample.argumentOf "argument5"))).tidy {} [{}] =
        .ok (e', [f']) ∧ 5 ≤ f'.maxArgument.toInt) ∧
      ∃ r', (Sample.countedRoutine 2).tidy {} none [] = .ok (r', []) ∧
        r'.parameters.length = r'.fragment.maxArgument.toInt + 1 := by
  obtain ⟨haccess, hroutine⟩ := highest_argument_exact_iff {}
  have hindex : (Sample.argumentOf "argument5").argumentIndex? = some 5 := by decide +kernel
  have hstruct : (Sample.countedRoutine 2).fragment.isStruct = false := by decide +kernel
  refine ⟨hindex, hstruct, ?_, ?_⟩
  · obtain ⟨e', f', hrun, -, hexact⟩ := haccess
      (.ofShape (.access (Sample.argumentOf "argument5"))) _ 5 {} [] rfl hindex rfl
    exact ⟨e', f', hrun, hexact.mpr (by decide)⟩
  · obtain ⟨r', hrun, hle, hexact⟩ := hroutine (Sample.countedRoutine 2) none [] hstruct
    have hmax : ((Sample.countedRoutine 2).tidy {} none []).toOption.map
        (·.1.fragment.maxArgument.toInt) = some 2 := by decide +kernel
    rw [hrun] at hmax
    have htwo : r'.fragment.maxArgument.toInt = 2 := Option.some.inj hmax
    have hfits : -1 ≤ r'.fragment.maxArgument.toInt ∧
        r'.fragment.maxArgument.toInt < Fragment.indexLimit := by
      rw [htwo]
      decide
    exact ⟨r', hrun, hexact.mpr hfits⟩

/-- The argument `2 ^ 31` is noted as `-2 ^ 31` and the argument `2 ^ 32 + 1` as `1`, so that the
first one is taken for none, and a function that returns one of them has no parameter for it. -/
theorem highest_argument_wraps :
    (Sample.argumentOf "argument2147483648").argumentIndex? = some 2147483648 ∧
      (Sample.argumentOf "argument4294967297").argumentIndex? = some 4294967297 ∧
      (∃ e', (Expr.ofShape (.access (Sample.argumentOf "argument2147483648"))).tidy {} [{}] =
        .ok (e', [{ maxArgument := -1 }])) ∧
      (∃ e', (Expr.ofShape (.access (Sample.argumentOf "argument4294967297"))).tidy {} [{}] =
        .ok (e', [{ maxArgument := 1 }])) ∧
      decompile (Sample.returnsArgument "argument2147483648") =
        .ok "function f() \x7b\n    return arg2147483648;\n\x7d\n" ∧
      decompile (Sample.returnsArgument "argument4294967297") =
        .ok "function f(arg0, arg1) \x7b\n    return arg4294967297;\n\x7d\n" := by
  refine ⟨by decide +kernel, by decide +kernel, ⟨_, rfl⟩, ⟨_, rfl⟩, by decide +kernel,
    by decide +kernel⟩

end GmlDecompiler

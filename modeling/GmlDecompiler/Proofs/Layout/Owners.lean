import GmlDecompiler.Program
import GmlDecompiler.Proofs.Layout.Operators
import GmlDecompiler.Proofs.Naming.Tidying

/-!
# What suffixes are written after

The name of a variable is written after its owner, and the arguments of a call after the function
value that is called. Such a suffix binds more tightly than any operator, so an operation before it
needs parentheses. Tidying puts none around it. The operation is in parentheses only if it was
before, or if a value of a struct literal stands for it that is.
-/

namespace GmlDecompiler

/-- The expression is an operation, which a suffix after its text would split. -/
def Expr.isOperation (e : Expr) : Bool :=
  match e.shape with
  | .unary _ _ | .binary _ _ _ | .chain _ _ => true
  | _ => false

namespace Shape

/-- The expression that a suffix is written after: the owner of a variable, unless the variable is
shown by a name of its own, or the function value that is called. -/
def base? : Shape → Option Expr
  | .access a => if a.argumentName.isSome then none else some a.owner
  | .callValue callee _ _ => some callee
  | _ => none

/-- The suffix: the name of the variable and its indices, or the arguments of the call. -/
def suffix : Shape → Except Fault (List Step)
  | .access a => do
    let indices ← indexSteps a.indices
    return .write "." :: .write a.target.name :: indices
  | .callValue _ _ arguments => do
    let arguments ← separatedSteps [.write ", "] arguments
    return .write "(" :: arguments ++ [.write ")"]
  | _ => .ok []

/-- In the text the expression before the suffix is in parentheses. -/
def Encloses (shape : Shape) (base : Expr) (text : List Step) : Prop :=
  ∃ inner suffix, base.shape.steps = .ok inner ∧ shape.suffix = .ok suffix ∧
    text = parenthesize true inner ++ suffix

/-- An operation is written before its suffix as it is written elsewhere. -/
theorem steps_eq_of_base? {shape : Shape} {base : Expr} (hbase : shape.base? = some base)
    (hoperation : base.isOperation = true) :
    shape.steps = (do
      let before ← base.steps
      let suffix ← shape.suffix
      return before ++ suffix) := by
  cases shape with
  | access a =>
    obtain ⟨target, reference, owner, indices, regularPush, argumentName⟩ := a
    cases argumentName with
    | some name => cases hbase
    | none =>
      obtain rfl : owner = base := Option.some.inj hbase
      have hinstance : owner.instance? = none := by
        cases hshape : owner.shape <;> simp_all [Expr.isOperation, Expr.instance?]
      simp only [Shape.steps, Access.steps, hinstance, suffix]
      cases owner.steps with
      | error fault => rfl
      | ok before =>
        cases indexSteps indices with
        | error fault => rfl
        | ok indices => simp [bind, Except.bind]
  | callValue callee self arguments =>
    obtain rfl : callee = base := Option.some.inj hbase
    simp only [Shape.steps, suffix]
    cases callee.steps with
    | error fault => rfl
    | ok before =>
      cases separatedSteps [.write ", "] arguments with
      | error fault => rfl
      | ok arguments => simp [bind, Except.bind]
  | _ => cases hbase

/-- An operation before a suffix is in parentheses exactly if it is marked so. -/
theorem encloses_iff {shape : Shape} {base : Expr} {text : List Step}
    (hbase : shape.base? = some base) (hoperation : base.isOperation = true)
    (htext : shape.steps = .ok text) : shape.Encloses base text ↔ base.grouped = true := by
  rw [steps_eq_of_base? hbase hoperation] at htext
  obtain ⟨before, hbefore, htext⟩ := exists_of_bind_eq_ok htext
  obtain ⟨suffix, hsuffix, htext⟩ := exists_of_bind_eq_ok htext
  obtain ⟨inner, hinner, hbefore⟩ : ∃ inner, base.shape.steps = .ok inner ∧
      pure (parenthesize base.grouped inner) = Except.ok before := by
    obtain ⟨⟩ := base
    exact exists_of_bind_eq_ok hbefore
  cases hbefore
  cases htext
  constructor
  · rintro ⟨inner', suffix', hinner', hsuffix', hsame⟩
    cases hinner.symm.trans hinner'
    cases hsuffix.symm.trans hsuffix'
    by_contra hgrouped
    -- the text without the parentheses is shorter
    have hlength := congrArg List.length hsame
    simp only [parenthesize, hgrouped, if_true, if_false, List.length_append, List.length_cons,
      List.length_nil] at hlength
    omega
  · intro hgrouped
    exact ⟨inner, suffix, hinner, hsuffix, by rw [hgrouped]⟩

end Shape

/-- What stands in the place of an expression: a value of the struct literal around it, or the
expression itself. -/
def Expr.standing (scopes : Scopes) (e : Expr) : Expr :=
  (e.shape.substitute? scopes).getD e

/-- Tidying an expression puts no parentheses around it. -/
theorem Expr.grouped_tidy {c : Config} {e e' : Expr} {scopes scopes' : Scopes}
    (hrun : e.tidy c scopes = .ok (e', scopes')) :
    e'.grouped = (e.standing scopes).grouped := by
  unfold Expr.standing
  rcases Expr.tidy_eq_ok hrun with hvalue | ⟨hvalue, shape', -, rfl⟩ <;> rw [hvalue] <;> rfl

/-- Tidying keeps what a suffix is written after, unless a variable gets a name of its own. -/
theorem Shape.tidy_base (c : Config) {shape : Shape} {base : Expr}
    (hbase : shape.base? = some base) (outer : Scopes) (f : Fragment) :
    ∃ shape' base' f' f₁, base.tidy c (f :: outer) = .ok (base', f₁ :: outer) ∧
      shape.tidy c (f :: outer) = .ok (shape', f' :: outer) ∧
      (shape'.base? = none ∨ shape'.base? = some base') := by
  cases shape with
  | access a =>
    obtain ⟨target, reference, owner, indices, regularPush, argumentName⟩ := a
    cases argumentName with
    | some name => cases hbase
    | none =>
      obtain rfl : owner = base := Option.some.inj hbase
      obtain ⟨owner', f₁, howner, -⟩ := owner.tidy_passes c outer f
      obtain ⟨indices', f₂, hindices, -⟩ := tidyOptionalExprs_passes c indices outer f₁
      obtain ⟨a', f₃, hfinish, -, -, howner', -⟩ :=
        c.finishAccess_spec ⟨target, reference, owner', indices', regularPush, none⟩ outer f₂
      refine ⟨.access a', owner', f₃, f₁, howner, ?_, ?_⟩
      · exact Tidying.bind_eq (Tidying.bind_eq howner (Tidying.bind_eq hindices hfinish)) rfl
      · unfold Shape.base?
        dsimp only
        rw [howner']
        split
        · exact .inl rfl
        · exact .inr rfl
  | callValue callee self arguments =>
    obtain rfl : callee = base := Option.some.inj hbase
    obtain ⟨callee', f₁, hcallee, -⟩ := callee.tidy_passes c outer f
    obtain ⟨self', f₂, hself, -⟩ := self.tidy_passes c outer f₁
    obtain ⟨arguments', f₃, harguments, -⟩ := tidyExprs_passes c arguments outer f₂
    refine ⟨.callValue callee' self' arguments', callee', f₃, f₁, hcallee, ?_, .inr rfl⟩
    exact Tidying.bind_eq hcallee (Tidying.bind_eq hself (Tidying.bind_eq harguments rfl))
  | _ => cases hbase

/-- After tidying, an operation that a suffix is written after is in parentheses, exactly if it was
before, or the value of a struct literal that stands for it was. -/
theorem tidied_base_enclosed_iff (c : Config) {shape : Shape} {base : Expr}
    (hbase : shape.base? = some base) (outer : Scopes) (f : Fragment) :
    ∃ shape' base' f' f₁, base.tidy c (f :: outer) = .ok (base', f₁ :: outer) ∧
      shape.tidy c (f :: outer) = .ok (shape', f' :: outer) ∧
      (shape'.base? = none ∨ shape'.base? = some base') ∧
      (shape'.base? = some base' → base'.isOperation = true → ∀ text, shape'.steps = .ok text →
        (shape'.Encloses base' text ↔ (base.standing (f :: outer)).grouped = true)) := by
  obtain ⟨shape', base', f', f₁, hrun, hshape, hkept⟩ := Shape.tidy_base c hbase outer f
  refine ⟨shape', base', f', f₁, hrun, hshape, hkept, fun hbase' hoperation text htext => ?_⟩
  rw [Shape.encloses_iff hbase' hoperation htext, Expr.grouped_tidy hrun]

namespace Sample

/-- The expression `a + b`. -/
def sum : Expr :=
  .ofShape (.binary (.plain .add) (own "a") (own "b"))

/-- The variable `x` of `a + b`. -/
def memberOfSum : Shape :=
  .access ⟨⟨"x", .own⟩, .stackTop, sum, none, true, none⟩

/-- Code that pushes `a + b`. -/
def pushSum : List Instruction :=
  [.pushVariable .push ⟨"a", .own⟩ .normal, .pushVariable .push ⟨"b", .own⟩ .normal, .plain .add]

/-- Code that returns the variable `x` of `a + b`. -/
def returnsMemberOfSum : Entry where
  name := "gml_Object_player_Step_0"
  body := [.block ⟨0, pushSum ++ [.pushVariable .push ⟨"x", .own⟩ .stackTop, .plain .ret]⟩]

/-- Code that returns the result of a call of `a + b`. -/
def callsSum : Entry where
  name := "gml_Object_player_Step_0"
  body := [.block ⟨0, [.pushImmediate (-1)] ++ pushSum ++ [.plain .callValue, .plain .ret]⟩]

end Sample

/-- The member of a sum: the sum is tidied as the base, and it is enclosed exactly if it was in
parentheses before. -/
theorem tidied_base_enclosed_iff_sum :
    Sample.memberOfSum.base? = some Sample.sum ∧
      ∃ shape' base' f' f₁, Sample.sum.tidy {} [{}] = .ok (base', [f₁]) ∧
        Sample.memberOfSum.tidy {} [{}] = .ok (shape', [f']) ∧
        (shape'.base? = none ∨ shape'.base? = some base') ∧
        (shape'.base? = some base' → base'.isOperation = true → ∀ text, shape'.steps = .ok text →
          (shape'.Encloses base' text ↔ (Sample.sum.standing [{}]).grouped = true)) :=
  ⟨rfl, tidied_base_enclosed_iff {} rfl [] {}⟩

/-- The owner `a + b` is written before `.x` without parentheses, so that `.x` goes with `b`. -/
theorem owner_not_enclosed :
    Sample.memberOfSum.tidy {} [{}] = .ok (Sample.memberOfSum, [{}]) ∧
      Sample.memberOfSum.base? = some Sample.sum ∧ Sample.sum.isOperation = true ∧
      (∃ text, Sample.memberOfSum.steps = .ok text ∧
        ¬ Sample.memberOfSum.Encloses Sample.sum text) ∧
      decompile Sample.returnsMemberOfSum = .ok "return a + b.x;\n" ∧
      decompile Sample.callsSum = .ok "return a + b();\n" := by
  refine ⟨rfl, rfl, rfl, ⟨_, rfl, ?_⟩, by decide +kernel, by decide +kernel⟩
  rw [Shape.encloses_iff rfl rfl rfl]
  exact Bool.false_ne_true

end GmlDecompiler

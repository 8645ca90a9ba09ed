import GmlDecompiler.Program
import GmlDecompiler.Proofs.Naming.Tidying

/-!
# Elements of arguments

`argument0` and `argument[0]` are an argument, `argument0[1]` is an element of it. The argument that
an access reads is found by its name alone, so that an element counts as the argument: inside a
routine it is shown by the name of the argument, in a struct literal the value of the argument takes
its place, and a check of an element becomes the default value of the argument. The indices are lost
each time. They are kept exactly if there are no names to show, if the literal has no value for the
argument, and if the statement is no check at all.
-/

namespace GmlDecompiler

/-- The access is of elements of the variable `argumentN`. -/
structure Access.ElementOf (a : Access) (n : Nat) : Prop where
  name : ∃ digits : List Char, digits ≠ [] ∧ (∀ c ∈ digits, c.isDigit = true) ∧
    Double.digitsValue digits = n ∧ a.target.name.toList = "argument".toList ++ digits
  indices : a.indices.isSome = true

/-- What is written before a variable for its owner. -/
def Expr.ownerSteps (owner : Expr) : Except Fault (List Step) :=
  match owner.instance? with
  | some value => if value.isImplicit then pure [] else pure [.write value.text, .write "."]
  | none => do
    let owner ← owner.steps
    pure (owner ++ [.write "."])

/-- The text of the access ends with its indices, in brackets after a name. -/
def Access.ShowsIndices (a : Access) : Prop :=
  a.indices.isSome = true ∧ ∃ (before : Except Fault (List Step)) (name : String),
    a.steps = do
      let before ← before
      let indices ← indexSteps a.indices
      return before ++ .write name :: indices

section Access

variable {a : Access} {n : Nat}

/-- An element counts as the argument, as long as its index fits 64 bits. -/
theorem Access.ElementOf.argumentIndex?_eq (helement : a.ElementOf n) :
    a.argumentIndex? = if n < UInt64.size then some n else none := by
  obtain ⟨digits, hnonempty, hdigits, rfl, hname⟩ := helement.name
  have hlonger : a.target.name ≠ "argument" := by
    intro hsame
    rw [hsame] at hname
    exact hnonempty (List.self_eq_append_right.mp hname)
  have hafter : afterArgument? a.target.name = some digits := by
    simp only [afterArgument?, hname, List.drop_left]
    rw [if_pos (by simp)]
  have hall : digits.all Char.isDigit = true := List.all_eq_true.mpr hdigits
  have hsome : digits.isEmpty = false := List.isEmpty_eq_false_iff.mpr hnonempty
  rw [argumentIndex?, if_neg hlonger, hafter, Option.bind_some, decimalIndex?]
  simp [hall, hsome]

/-- A name takes the place of the whole access. -/
theorem Access.steps_of_name {name : String} (hname : a.argumentName = some name) :
    a.steps = .ok [.write name] := by
  obtain ⟨target, reference, owner, indices, regularPush, argumentName⟩ := a
  obtain rfl : argumentName = some name := hname
  rw [Access.steps]

/-- An access without such a name shows its owner, its variable and its indices. -/
theorem Access.steps_of_unnamed (hname : a.argumentName = none) :
    a.steps = do
      let before ← a.owner.ownerSteps
      let indices ← indexSteps a.indices
      return before ++ .write a.target.name :: indices := by
  obtain ⟨target, reference, owner, indices, regularPush, argumentName⟩ := a
  obtain rfl : argumentName = none := hname
  rw [Access.steps, Expr.ownerSteps]
  cases owner.instance? with
  | some value =>
    dsimp only
    cases value.isImplicit <;> rfl
  | none => cases owner.steps <;> rfl

/-- An access shows its indices exactly if it has no name. -/
theorem Access.showsIndices_iff (hindices : a.indices.isSome = true) :
    a.ShowsIndices ↔ a.argumentName = none := by
  constructor
  · rintro ⟨-, before, name, hsteps⟩
    cases hshown : a.argumentName with
    | none => rfl
    | some shown =>
      rw [Access.steps_of_name hshown] at hsteps
      obtain ⟨first, -, hsteps⟩ := exists_of_bind_eq_ok hsteps.symm
      obtain ⟨indices, hinner, hsteps⟩ := exists_of_bind_eq_ok hsteps
      obtain ⟨es, hes⟩ := Option.isSome_iff_exists.mp hindices
      rw [hes, indexSteps] at hinner
      obtain ⟨inner, -, hinner⟩ := exists_of_bind_eq_ok hinner
      cases hinner
      have hlength := congrArg List.length (Except.ok.inj hsteps)
      simp only [List.length_append, List.length_cons, List.length_nil] at hlength
      omega
  · intro hname
    exact ⟨hindices, a.owner.ownerSteps, a.target.name, Access.steps_of_unnamed hname⟩

end Access

/-- Indices that are tidied are still there. -/
theorem isSome_of_tidyOptionalExprs {c : Config} {es es' : Option (List Expr)}
    {scopes scopes' : Scopes} (hrun : tidyOptionalExprs c es scopes = .ok (es', scopes')) :
    es'.isSome = es.isSome := by
  cases es with
  | none =>
    cases hrun
    rfl
  | some es =>
    rw [tidyOptionalExprs] at hrun
    obtain ⟨⟨es'', _⟩, -, hrun⟩ := exists_of_bind_eq_ok hrun
    cases hrun
    rfl

/-- An argument has no name to show exactly in a dialect without such names. -/
theorem Config.nameArgument_eq_none_iff (c : Config) (f : Fragment) (index : Nat) :
    (c.nameArgument f index).1 = none ↔ c.dialect.namedArguments = false := by
  unfold Config.nameArgument
  cases c.dialect.namedArguments <;> simp

section Tidying

variable {c : Config} {a : Access} {n : Nat}

/-- Inside a routine, an element gets the name of the argument. -/
theorem Access.ElementOf.finishAccess (helement : a.ElementOf n) (f g : Fragment) (outer : Scopes) :
    ∃ a' f', c.finishAccess a (f :: g :: outer) = .ok (a', f' :: g :: outer) ∧
      (a'.argumentName = none ↔
        if n < UInt64.size then c.dialect.namedArguments = false else a.argumentName = none) := by
  unfold Config.finishAccess
  rw [helement.argumentIndex?_eq]
  by_cases hfits : n < UInt64.size
  · rw [if_pos hfits, if_pos hfits]
    exact ⟨_, _, rfl, c.nameArgument_eq_none_iff _ n⟩
  · rw [if_neg hfits, if_neg hfits]
    exact ⟨a, f, rfl, Iff.rfl⟩

/-- Inside a routine, an element is shown by the name of the argument if there are names. -/
theorem Access.ElementOf.tidy (helement : a.ElementOf n) (f g : Fragment) (outer : Scopes) :
    ∃ a' f', a.tidy c (f :: g :: outer) = .ok (a', f' :: g :: outer) ∧ a.Keeps c a' ∧
      (a'.ShowsIndices ↔
        if n < UInt64.size then c.dialect.namedArguments = false else a.argumentName = none) := by
  obtain ⟨target, reference, owner, indices, regularPush, argumentName⟩ := a
  obtain ⟨owner', f₁, howner, -⟩ := owner.tidy_passes c (g :: outer) f
  obtain ⟨indices', f₂, hindices, -⟩ := tidyOptionalExprs_passes c indices (g :: outer) f₁
  have hsome : indices'.isSome = true := by
    rw [isSome_of_tidyOptionalExprs hindices]
    exact helement.indices
  have helement' : Access.ElementOf
      ⟨target, reference, owner', indices', regularPush, argumentName⟩ n := ⟨helement.name, hsome⟩
  obtain ⟨a', f', hfinish, hname⟩ := helement'.finishAccess f₂ g outer (c := c)
  have hrun : Access.tidy c ⟨target, reference, owner, indices, regularPush, argumentName⟩
      (f :: g :: outer) = .ok (a', f' :: g :: outer) := by
    rw [Access.tidy]
    exact Tidying.bind_eq howner (Tidying.bind_eq hindices hfinish)
  have hshown : a'.indices.isSome = true := by
    rw [Config.eq_of_finishAccess hfinish]
    exact hsome
  exact ⟨a', f', hrun, Access.tidy_keeps hrun, (Access.showsIndices_iff hshown).trans hname⟩

/-- In a struct literal that has a value for the argument, the value takes the place of an element;
in one that has none, the element stays. -/
theorem Access.ElementOf.tidy_struct (helement : a.ElementOf n) {e : Expr}
    (hshape : e.shape = .access a) {f : Fragment} {values : List Expr}
    (hvalues : f.structArguments = some values) (outer : Scopes) :
    (∀ value, n < UInt64.size → values[n]? = some value →
      e.tidy c (f :: outer) = .ok (value, f :: outer)) ∧
    ((n < UInt64.size → values.length ≤ n) → ∃ a' f',
      e.tidy c (f :: outer) = .ok ({ e with shape := .access a' }, f' :: outer) ∧
      a.Keeps c a') := by
  have hsubstitute : e.shape.substitute? (f :: outer) =
      if n < UInt64.size then values[n]? else none := by
    rw [hshape, Shape.substitute?, helement.argumentIndex?_eq]
    split
    · simp [Scopes.structArgument?, hvalues]
    · rfl
  constructor
  · intro value hfits hvalue
    rw [if_pos hfits, hvalue] at hsubstitute
    obtain ⟨shape, duplicated, grouped, slot⟩ := e
    simp only at hsubstitute
    simp only [Expr.tidy, hsubstitute, bind, StateT.bind, Except.bind, pure_apply, get_apply]
  · intro hbeyond
    have hnone : e.shape.substitute? (f :: outer) = none := by
      rw [hsubstitute]
      split
      · exact List.getElem?_eq_none (hbeyond ‹_›)
      · rfl
    obtain ⟨a', f', hrun, -⟩ := a.tidy_passes c outer f
    refine ⟨a', f', ?_, Access.tidy_keeps hrun⟩
    apply Expr.tidy_of_shape hnone
    rw [hshape]
    exact Tidying.bind_eq hrun rfl

end Tidying

section Checks

/-- The statement is `if (left == right) target = value`, with any operator between two accesses. -/
inductive Stmt.Checks (operator : Instruction) (left right target : Access) (value : Expr) :
    Stmt → Prop
  | intro {condition leftExpr rightExpr targetExpr : Expr} {braced : Bool} :
    condition.shape = .binary operator leftExpr rightExpr → leftExpr.access? = some left →
    rightExpr.access? = some right → targetExpr.access? = some target →
    Checks operator left right target value
      (.branch condition ⟨[.assign targetExpr value], braced⟩ none)

/-- The comparison tests whether its left operand is `undefined`. -/
def Access.TestedBy (right : Access) (operator : Instruction) : Prop :=
  operator.opcode = .compare ∧ operator.comparison = some .equal ∧ right.isUndefined = true

/-- After its local variables are declared, the routine begins with a statement. -/
def Routine.BeginsWith (r : Routine) (s : Stmt) : Prop :=
  ∃ before rest, r.body.statements = before ++ s :: rest ∧ ∀ t ∈ before, t.isLocals = true

variable {operator : Instruction} {left right target : Access} {value : Expr} {s : Stmt}

/-- A statement checks for a missing argument exactly if it tests the argument that it assigns. -/
theorem Stmt.Checks.defaultCheck?_eq_some_iff (hchecks : s.Checks operator left right target value)
    {p : Nat × Expr} :
    s.defaultCheck? = some p ↔ right.TestedBy operator ∧ left.argumentIndex? = some p.1 ∧
      target.argumentIndex? = some p.1 ∧ p.2 = value := by
  obtain ⟨hcondition, hleft, hright, htarget⟩ := hchecks
  simp only [Stmt.defaultCheck?, hcondition, hleft, hright, htarget, Option.bind_some,
    Option.bind_eq_some_iff, Access.TestedBy]
  constructor
  · rintro ⟨index, hindex, hcheck⟩
    split at hcheck
    · rename_i htests
      cases hcheck
      obtain ⟨hopcode, hequal, hundefined, hsame⟩ := htests
      exact ⟨⟨hopcode, hequal, hundefined⟩, hindex, hsame, rfl⟩
    · cases hcheck
  · rintro ⟨⟨hopcode, hequal, hundefined⟩, hindex, hsame, rfl⟩
    exact ⟨p.1, hindex, if_pos ⟨hopcode, hequal, hundefined, hsame⟩⟩

/-- A default value that is put at its place does not displace those of other arguments. -/
theorem mem_putDefault {index : Nat} {defaults : List (Nat × Expr)} {p : Nat × Expr}
    (hp : p = (index, value) ∨ p ∈ defaults ∧ p.1 ≠ index) :
    p ∈ putDefault index value defaults := by
  induction defaults with
  | nil =>
    rcases hp with rfl | ⟨hp, -⟩
    · exact List.mem_singleton_self _
    · cases hp
  | cons first rest ih =>
    rw [putDefault]
    split
    · rcases hp with rfl | ⟨hp, -⟩
      · exact List.mem_cons_self
      · exact List.mem_cons_of_mem _ hp
    · split
      · rcases hp with rfl | ⟨hp, hother⟩
        · exact List.mem_cons_self
        · rcases List.mem_cons.mp hp with rfl | hp
          · exact absurd (Eq.symm ‹_›) hother
          · exact List.mem_cons_of_mem _ hp
      · rcases hp with rfl | ⟨hp, hother⟩
        · exact List.mem_cons_of_mem _ (ih (.inl rfl))
        · rcases List.mem_cons.mp hp with rfl | hp
          · exact List.mem_cons_self
          · exact List.mem_cons_of_mem _ (ih (.inr ⟨hp, hother⟩))

/-- Folding checks keeps the default values that were found before. -/
theorem mem_foldChecks {last : Option Nat} {defaults : List (Nat × Expr)} {ss : List Stmt}
    {p : Nat × Expr} (hp : p ∈ defaults) : p ∈ (foldChecks last defaults ss).1 := by
  fun_induction foldChecks last defaults ss with
  | case1 | case2 | case4 => exact hp
  | case3 last defaults s rest index value hcheck hnew ih =>
    apply ih
    apply mem_putDefault
    refine .inr ⟨hp, fun hsame => hnew ?_⟩
    have hlookup : (defaults.lookup index).isSome = true := by
      rw [← hsame, List.lookup_isSome_iff]
      exact ⟨p, hp, by simp⟩
    simp [hlookup]

/-- Folding a routine whose first statement after its local variables is known: the checks are
looked for from there on. -/
theorem Routine.foldDefaults_eq (r : Routine) {before rest : List Stmt}
    (hbody : r.body.statements = before ++ s :: rest) (hbefore : ∀ t ∈ before, t.isLocals = true)
    (hs : s.isLocals = false) :
    r.foldDefaults =
      { r with
        defaults := (foldChecks none r.defaults (s :: rest)).1
        body := ⟨before ++ (foldChecks none r.defaults (s :: rest)).2, r.body.braced⟩ } := by
  have htake : r.body.statements.takeWhile Stmt.isLocals = before := by
    rw [hbody, List.takeWhile_append_of_pos hbefore, List.takeWhile_cons_of_neg (by simp [hs]),
      List.append_nil]
  have hdrop : r.body.statements.dropWhile Stmt.isLocals = s :: rest := by
    rw [hbody, List.dropWhile_append_of_pos hbefore, List.dropWhile_cons_of_neg (by simp [hs])]
  rw [Routine.foldDefaults, htake, hdrop]

/-- A routine that begins with a check is left as it is exactly if the check is not one for a
missing argument; otherwise the value that is assigned is the default value of the argument. -/
theorem Stmt.Checks.foldDefaults (hchecks : s.Checks operator left right target value)
    {r : Routine} (hbegins : r.BeginsWith s) (hdefaults : r.defaults = []) :
    (r.foldDefaults = r ↔ s.defaultCheck? = none) ∧
    ∀ p, s.defaultCheck? = some p → p ∈ r.foldDefaults.defaults := by
  obtain ⟨before, rest, hbody, hbefore⟩ := hbegins
  have hs : s.isLocals = false := by
    cases hchecks
    rfl
  have hfold := r.foldDefaults_eq hbody hbefore hs
  rw [hdefaults] at hfold
  have hmoved : ∀ p, s.defaultCheck? = some p → p ∈ r.foldDefaults.defaults := by
    intro p hsome
    rw [hfold, foldChecks, hsome]
    apply mem_foldChecks
    exact mem_putDefault (.inl rfl)
  refine ⟨⟨fun hsame => ?_, fun hnone => ?_⟩, hmoved⟩
  · by_contra hcheck
    obtain ⟨p, hp⟩ := Option.ne_none_iff_exists'.mp hcheck
    have hmem := hmoved p hp
    rw [hsame, hdefaults] at hmem
    cases hmem
  · rw [foldChecks, hnone] at hfold
    rw [hfold]
    obtain ⟨name, isConstructor, ⟨statements, braced⟩, fragment, defaults, parameters, blankBefore,
      blankAfter⟩ := r
    simp only at hbody hdefaults ⊢
    rw [hbody, hdefaults]

/-- A statement that compares or assigns an element is a check for the argument if it is made like
one. -/
theorem Access.ElementOf.defaultCheck?_eq_some_iff {a undefined other : Access} {n : Nat}
    (helement : a.ElementOf n)
    (hchecks : s.Checks operator a undefined other value ∨ s.Checks operator other undefined a value)
    {p : Nat × Expr} :
    s.defaultCheck? = some p ↔ (undefined.TestedBy operator ∧ n < UInt64.size ∧
      other.argumentIndex? = some n) ∧ p = (n, value) := by
  have hindex (i : Nat) : a.argumentIndex? = some i ↔ n < UInt64.size ∧ n = i := by
    rw [helement.argumentIndex?_eq]
    by_cases hfits : n < UInt64.size <;> simp [hfits]
  rcases hchecks with hchecks | hchecks
  · rw [hchecks.defaultCheck?_eq_some_iff, hindex, Prod.ext_iff]
    constructor
    · rintro ⟨htested, ⟨hfits, rfl⟩, hother, hvalue⟩
      exact ⟨⟨htested, hfits, hother⟩, rfl, hvalue⟩
    · rintro ⟨⟨htested, hfits, hother⟩, hn, hvalue⟩
      rw [hn]
      exact ⟨htested, ⟨hfits, rfl⟩, hother, hvalue⟩
  · rw [hchecks.defaultCheck?_eq_some_iff, hindex, Prod.ext_iff]
    constructor
    · rintro ⟨htested, hother, ⟨hfits, rfl⟩, hvalue⟩
      exact ⟨⟨htested, hfits, hother⟩, rfl, hvalue⟩
    · rintro ⟨⟨htested, hfits, hother⟩, hn, hvalue⟩
      rw [hn]
      exact ⟨htested, hother, ⟨hfits, rfl⟩, hvalue⟩

/-- At the start of a routine, a statement that compares or assigns an element stays exactly if it
is not made like a check for the argument. -/
theorem Access.ElementOf.foldDefaults {a undefined other : Access} {n : Nat}
    (helement : a.ElementOf n)
    (hchecks : s.Checks operator a undefined other value ∨ s.Checks operator other undefined a value)
    {r : Routine} (hbegins : r.BeginsWith s) (hdefaults : r.defaults = []) :
    (r.foldDefaults = r ↔ ¬ (undefined.TestedBy operator ∧ n < UInt64.size ∧
      other.argumentIndex? = some n)) ∧
    (r.foldDefaults ≠ r → (n, value) ∈ r.foldDefaults.defaults) := by
  have hcheck (p : Nat × Expr) := helement.defaultCheck?_eq_some_iff hchecks (p := p)
  have hfolds : (r.foldDefaults = r ↔ s.defaultCheck? = none) ∧
      ∀ p, s.defaultCheck? = some p → p ∈ r.foldDefaults.defaults := by
    rcases hchecks with hchecks | hchecks
    · exact hchecks.foldDefaults hbegins hdefaults
    · exact hchecks.foldDefaults hbegins hdefaults
  obtain ⟨hkept, hmoved⟩ := hfolds
  have hnone : s.defaultCheck? = none ↔ ¬ (undefined.TestedBy operator ∧ n < UInt64.size ∧
      other.argumentIndex? = some n) := by
    constructor
    · intro hnone htested
      have hsome := (hcheck (n, value)).mpr ⟨htested, rfl⟩
      rw [hnone] at hsome
      cases hsome
    · intro hnot
      refine Option.eq_none_iff_forall_ne_some.mpr fun p hp => hnot ?_
      exact ((hcheck p).mp hp).1
  refine ⟨hkept.trans hnone, fun hchanged => ?_⟩
  have htested := not_not.mp (mt (hkept.trans hnone).mpr hchanged)
  exact hmoved _ ((hcheck (n, value)).mpr ⟨htested, rfl⟩)

end Checks

/-- What becomes of an element of an argument. Inside a routine its text shows its indices exactly
if the dialect has no names for arguments, or the number is too large to be one of an argument. In a
struct literal it stays an element exactly if the literal has no value for the argument. At the
start of a routine, a statement that compares or assigns an element stays exactly if it is not made
like a check for the argument itself. -/
theorem element_indices_kept_iff (c : Config) {a : Access} {n : Nat} (helement : a.ElementOf n) :
    (∀ (f g : Fragment) (outer : Scopes), ∃ a' f',
      a.tidy c (f :: g :: outer) = .ok (a', f' :: g :: outer) ∧ a.Keeps c a' ∧
      (a'.ShowsIndices ↔
        if n < UInt64.size then c.dialect.namedArguments = false else a.argumentName = none)) ∧
    (∀ (e : Expr) (f : Fragment) (values : List Expr) (outer : Scopes), e.shape = .access a →
      f.structArguments = some values →
      (∀ value, n < UInt64.size → values[n]? = some value →
        e.tidy c (f :: outer) = .ok (value, f :: outer)) ∧
      ((n < UInt64.size → values.length ≤ n) → ∃ a' f',
        e.tidy c (f :: outer) = .ok ({ e with shape := .access a' }, f' :: outer) ∧
        a.Keeps c a')) ∧
    ∀ (operator : Instruction) (undefined other : Access) (value : Expr) (s : Stmt) (r : Routine),
      s.Checks operator a undefined other value ∨ s.Checks operator other undefined a value →
      r.BeginsWith s → r.defaults = [] →
      (r.foldDefaults = r ↔ ¬ (undefined.TestedBy operator ∧ n < UInt64.size ∧
        other.argumentIndex? = some n)) ∧
      (r.foldDefaults ≠ r → (n, value) ∈ r.foldDefaults.defaults) := by
  refine ⟨helement.tidy, fun e f values outer hshape hvalues => ?_, ?_⟩
  · exact helement.tidy_struct hshape hvalues outer
  · intro operator undefined other value s r hchecks hbegins hdefaults
    exact helement.foldDefaults hchecks hbegins hdefaults

namespace Sample

/-- The element `argument0[1]`. -/
def element : Access where
  target := ⟨"argument0", .argument⟩
  reference := .array
  owner := .ofShape (.int16 Instance.argument.raw)
  indices := some [.ofShape (.int16 1)]

/-- The sample is an element of the first argument. -/
theorem element_elementOf : element.ElementOf 0 where
  name := ⟨['0'], by decide, List.forall_mem_singleton.mpr (by decide), by decide, by decide⟩
  indices := rfl

/-- The variable `undefined`. -/
def undefinedAccess : Access where
  target := ⟨"undefined", .builtin⟩
  owner := .ofShape (.keyword .builtin)

/-- The statement `if (argument0[1] == undefined) argument0[1] = value`. -/
def elementCheck (value : Expr) : Stmt :=
  .branch (.ofShape (.binary (.compare .equal .variable .variable) (.ofShape (.access element))
      (.ofShape (.access undefinedAccess))))
    ⟨[.assign (.ofShape (.access element)) value], true⟩ none

/-- The code that puts the owner and the index of the element on the stack. -/
def elementOperands : List Instruction :=
  [.pushImmediate Instance.argument.raw, .pushImmediate 1]

/-- A push of the element. -/
def pushElement : List Instruction :=
  elementOperands ++ [.pushVariable .push element.target .array]

/-- A function that returns the element. -/
def second : Entry where
  name := "gml_GlobalScript_second"
  body := [.routine ⟨"gml_Script_second", some "second", false, 1⟩
    [.block ⟨0, pushElement ++ [.plain .ret]⟩]]

/-- A struct literal with the element as a member, made from a variable. -/
def pair : Entry where
  name := "gml_GlobalScript_pair"
  body := [.routine ⟨"gml_Script____struct___0_pair", none, true, 1⟩
      [.block ⟨0, pushElement ++ [.popVariable ⟨"second", .own⟩ .normal .variable]⟩],
    .block ⟨0, [.pushVariable .push ⟨"list", .own⟩ .normal,
      (Instruction.pushInt32 0).withFunction "gml_Script____struct___0_pair" 0,
      .convert .int32 .variable, .call Reserved.nullObject 0, .call Reserved.method 2,
      .call Reserved.newObject 2, .plain .ret]⟩]

/-- A function that gives the element a value if it has none. -/
def fill : Entry where
  name := "gml_GlobalScript_fill"
  body := [.routine ⟨"gml_Script_fill", some "fill", false, 1⟩
    [.block ⟨0, pushElement ++ [.pushVariable .pushBuiltin ⟨"undefined", .builtin⟩ .normal,
        .compare .equal .variable .variable]⟩,
      .branch [.block ⟨0, [.pushImmediate 5] ++ elementOperands ++
        [.popVariable element.target .array .variable]⟩] none]]

end Sample

/-- In a dialect without names for arguments, the element keeps its indices. -/
theorem element_indices_kept_iff_legacy :
    Sample.element.ElementOf 0 ∧
      (∃ a' f', Sample.element.tidy { dialect := Version.legacy.dialect } [{}, {}] =
        .ok (a', [f', {}]) ∧ a'.ShowsIndices) ∧
      ∃ a' f', (Expr.ofShape (.access Sample.element)).tidy { dialect := Version.legacy.dialect }
          [{ structArguments := some [] }] =
        .ok ({ Expr.ofShape (.access Sample.element) with shape := .access a' }, [f']) ∧
        a'.target = Sample.element.target := by
  obtain ⟨hroutine, hliteral, -⟩ := element_indices_kept_iff { dialect := Version.legacy.dialect }
    Sample.element_elementOf
  obtain ⟨a', f', hrun, -, hshows⟩ := hroutine {} {} []
  obtain ⟨-, hstays⟩ := hliteral (.ofShape (.access Sample.element)) { structArguments := some [] } []
    [] rfl rfl
  obtain ⟨a'', f'', hrun', hkeeps⟩ := hstays fun _ => Nat.le_refl 0
  exact ⟨Sample.element_elementOf, ⟨a', f', hrun, hshows.mpr rfl⟩, a'', f'', hrun', hkeeps.target_eq⟩

/-- The indices of an element are lost in a function, in a struct literal and in a check, and so are
they in the text of each. -/
theorem element_indices_lost :
    Sample.element.ElementOf 0 ∧
      (∃ a' f', Sample.element.tidy {} [{}, {}] = .ok (a', [f', {}]) ∧ ¬ a'.ShowsIndices) ∧
      (∀ value, (Expr.ofShape (.access Sample.element)).tidy {} [{ structArguments := some [value] }] =
        .ok (value, [{ structArguments := some [value] }])) ∧
      (∀ (value : Expr) (r : Routine), r.BeginsWith (Sample.elementCheck value) → r.defaults = [] →
        (0, value) ∈ r.foldDefaults.defaults) ∧
      decompile Sample.second = .ok "function second(arg0) \x7b\n    return arg0;\n\x7d\n" ∧
      decompile Sample.pair = .ok "return \x7b\n    second: list\n\x7d;\n" ∧
      decompile Sample.fill = .ok "function fill(arg0 = 5) \x7b\n\x7d\n" := by
  have helement := Sample.element_elementOf
  have hfits : 0 < UInt64.size := by decide
  have htexts : decompile Sample.second =
        .ok "function second(arg0) \x7b\n    return arg0;\n\x7d\n" ∧
      decompile Sample.pair = .ok "return \x7b\n    second: list\n\x7d;\n" ∧
      decompile Sample.fill = .ok "function fill(arg0 = 5) \x7b\n\x7d\n" := by
    decide +kernel
  refine ⟨helement, ?_, ?_, ?_, htexts⟩
  · obtain ⟨a', f', hrun, -, hshows⟩ := helement.tidy {} {} [] (c := {})
    refine ⟨a', f', hrun, ?_⟩
    rw [hshows, if_pos hfits]
    decide
  · intro value
    exact (helement.tidy_struct rfl rfl []).1 value hfits rfl
  · intro value r hbegins hdefaults
    have hchecks : (Sample.elementCheck value).Checks (.compare .equal .variable .variable)
        Sample.element Sample.undefinedAccess Sample.element value := .intro rfl rfl rfl rfl
    apply (hchecks.foldDefaults hbegins hdefaults).2
    apply (helement.defaultCheck?_eq_some_iff (.inl hchecks)).mpr
    exact ⟨⟨⟨rfl, rfl, rfl⟩, hfits, by rw [helement.argumentIndex?_eq, if_pos hfits]⟩, rfl⟩

end GmlDecompiler

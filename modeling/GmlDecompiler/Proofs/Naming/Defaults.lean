import GmlDecompiler.Proofs.Naming.Elements
import Mathlib.Data.List.Forall2

/-!
# Default values of arguments

A routine opens with the declaration of its local variables and with checks for missing arguments.
The longest run of checks with ascending indices, none of them of an argument that has a default
value already, is taken out of the statements, and each check becomes a default value. What follows
the run may be another check, of an argument with a lower index or behind more local variables. It
stays where it is, but it opens the routine that is left, so that folding again would take it too.
-/

namespace GmlDecompiler

section Checks

/-- The statement is `if (argument == undefined) argument = value`. -/
def Stmt.IsDefaultCheck (s : Stmt) (index : Nat) (value : Expr) : Prop :=
  ∃ operator left right target, s.Checks operator left right target value ∧
    right.TestedBy operator ∧ left.argumentIndex? = some index ∧
    target.argumentIndex? = some index

/-- A statement that is folded compares one place with another one and then assigns to a third. -/
theorem Stmt.exists_checks_of_defaultCheck? {s : Stmt} {p : Nat × Expr}
    (hcheck : s.defaultCheck? = some p) :
    ∃ operator left right target, s.Checks operator left right target p.2 := by
  unfold Stmt.defaultCheck? at hcheck
  split at hcheck
  · rename_i condition target value braced
    split at hcheck
    · rename_i operator leftExpr rightExpr hcondition
      split at hcheck
      · rename_i left right hleft hright
        obtain ⟨index, -, hcheck⟩ := Option.bind_eq_some_iff.mp hcheck
        split at hcheck
        · rename_i htests
          cases hcheck
          obtain ⟨written, htarget, -⟩ := Option.bind_eq_some_iff.mp htests.2.2.2
          exact ⟨operator, left, right, written, .intro hcondition hleft hright htarget⟩
        · cases hcheck
      · cases hcheck
    · cases hcheck
  · cases hcheck

/-- The statements that are folded are the checks for missing arguments. -/
theorem Stmt.defaultCheck?_eq_some_iff {s : Stmt} {index : Nat} {value : Expr} :
    s.defaultCheck? = some (index, value) ↔ s.IsDefaultCheck index value := by
  constructor
  · intro hcheck
    obtain ⟨operator, left, right, target, hchecks⟩ := exists_checks_of_defaultCheck? hcheck
    obtain ⟨htested, hleft, htarget, -⟩ := hchecks.defaultCheck?_eq_some_iff.mp hcheck
    exact ⟨operator, left, right, target, hchecks, htested, hleft, htarget⟩
  · rintro ⟨operator, left, right, target, hchecks, htested, hleft, htarget⟩
    exact hchecks.defaultCheck?_eq_some_iff.mpr ⟨htested, hleft, htarget, rfl⟩

/-- The end of a routine is no check. -/
theorem Stmt.exit_not_isDefaultCheck (index : Nat) (value : Expr) :
    ¬ Stmt.exit.IsDefaultCheck index value := by
  rintro ⟨operator, left, right, target, hchecks, -⟩
  cases hchecks

/-- A check is of one argument and gives one value. -/
theorem Stmt.IsDefaultCheck.unique {s : Stmt} {index index' : Nat} {value value' : Expr}
    (h : s.IsDefaultCheck index value) (h' : s.IsDefaultCheck index' value') :
    (index, value) = (index', value') := by
  rw [← defaultCheck?_eq_some_iff] at h h'
  exact Option.some.inj (h.symm.trans h')

end Checks

section Defaults

variable {index : Nat} {value : Expr} {defaults : List (Nat × Expr)}

/-- A default value that is put at its place is the one of its argument and of no other. -/
theorem lookup_putDefault (index : Nat) (value : Expr) (defaults : List (Nat × Expr)) (i : Nat) :
    (putDefault index value defaults).lookup i =
      if i = index then some value else defaults.lookup i := by
  fun_induction putDefault index value defaults with
  | case1 | case2 | case3 => grind
  | case4 _ _ _ _ _ ih => grind

/-- Putting a default value for an argument that has none adds it to the others. -/
theorem perm_putDefault (hnew : ∀ q ∈ defaults, q.1 ≠ index) :
    (putDefault index value defaults).Perm ((index, value) :: defaults) := by
  induction defaults with
  | nil => exact .refl _
  | cons first rest ih =>
    rw [putDefault]
    split
    · exact .refl _
    · rw [if_neg fun hsame => hnew first List.mem_cons_self hsame.symm]
      have hrest := ih fun q hq => hnew q (List.mem_cons_of_mem _ hq)
      exact (hrest.cons first).trans (.swap _ _ _)

/-- Default values stay in order. -/
theorem ascending_putDefault (hascending : defaults.Pairwise (·.1 < ·.1)) :
    (putDefault index value defaults).Pairwise (·.1 < ·.1) := by
  induction defaults with
  | nil => exact List.pairwise_singleton _ _
  | cons first rest ih =>
    obtain ⟨hfirst, hrest⟩ := List.pairwise_cons.mp hascending
    rw [putDefault]
    split
    · rename_i hbelow
      refine List.pairwise_cons.mpr ⟨fun q hq => ?_, hascending⟩
      rcases List.mem_cons.mp hq with rfl | hq
      · exact hbelow
      · exact Nat.lt_trans hbelow (hfirst q hq)
    · rename_i hnotBelow
      split
      · rename_i hsame
        exact List.pairwise_cons.mpr ⟨fun q hq => hsame ▸ hfirst q hq, hrest⟩
      · rename_i hother
        refine List.pairwise_cons.mpr ⟨fun q hq => ?_, ih hrest⟩
        rcases eq_or_mem_of_mem_putDefault hq with rfl | hq
        · dsimp only
          omega
        · exact hfirst q hq

/-- Folding checks keeps the default values in order. -/
theorem ascending_foldChecks (last : Option Nat) (ss : List Stmt)
    (hascending : defaults.Pairwise (·.1 < ·.1)) :
    (foldChecks last defaults ss).1.Pairwise (·.1 < ·.1) := by
  fun_induction foldChecks last defaults ss with
  | case1 | case2 | case4 => exact hascending
  | case3 last defaults s rest index value hcheck hnew ih =>
    exact ih (ascending_putDefault hascending)

end Defaults

/-- The argument of a check has no default value, and its index is higher than that of the check
before. -/
structure IsNext (defaults : List (Nat × Expr)) (last : Option Nat) (index : Nat) : Prop where
  fresh : ∀ q ∈ defaults, q.1 ≠ index
  above : ∀ i ∈ last, i < index

/-- A check is folded exactly if it is the next one. -/
theorem isNext_iff {defaults : List (Nat × Expr)} {last : Option Nat} {index : Nat} :
    IsNext defaults last index ↔
      ¬ ((defaults.lookup index).isSome || last.any (index ≤ ·)) = true := by
  have hfresh : (defaults.lookup index).isSome = true ↔ ∃ q ∈ defaults, q.1 = index := by
    simp only [List.lookup_isSome_iff, beq_iff_eq, @eq_comm _ index]
  have habove : last.any (index ≤ ·) = true ↔ ∃ i ∈ last, index ≤ i := by
    cases last <;> simp
  rw [Bool.or_eq_true, hfresh, habove]
  constructor
  · rintro ⟨hnone, hhigher⟩ (⟨q, hq, hsame⟩ | ⟨i, hi, hle⟩)
    · exact hnone q hq hsame
    · exact Nat.not_lt.mpr hle (hhigher i hi)
  · intro hnot
    obtain ⟨hnone, hhigher⟩ := not_or.mp hnot
    exact ⟨fun q hq hsame => hnone ⟨q, hq, hsame⟩,
      fun i hi => Nat.not_le.mp fun hle => hhigher ⟨i, hi, hle⟩⟩

/-- A run of checks with ascending indices, none of them of an argument that has a default value. -/
structure IsRun (defaults : List (Nat × Expr)) (run : List Stmt) (entries : List (Nat × Expr)) :
    Prop where
  checks : List.Forall₂ (fun s p => s.IsDefaultCheck p.1 p.2) run entries
  ascending : entries.Pairwise (·.1 < ·.1)
  fresh : ∀ p ∈ entries, ∀ q ∈ defaults, q.1 ≠ p.1

/-- The entries are what the statements of the run are read as. -/
theorem IsRun.map_defaultCheck? {defaults entries : List (Nat × Expr)} {run : List Stmt}
    (hrun : IsRun defaults run entries) : run.map Stmt.defaultCheck? = entries.map some := by
  obtain ⟨hchecks, -, -⟩ := hrun
  induction hchecks with
  | nil => rfl
  | cons hcheck _ ih =>
    rw [List.map_cons, List.map_cons, Stmt.defaultCheck?_eq_some_iff.mpr hcheck, ih]

/-- The statements of a run determine its entries. -/
theorem IsRun.unique {defaults entries entries' : List (Nat × Expr)} {run : List Stmt}
    (hrun : IsRun defaults run entries) (hrun' : IsRun defaults run entries') :
    entries = entries' := by
  have hsame := hrun.map_defaultCheck?.symm.trans hrun'.map_defaultCheck?
  exact (List.map_inj_right fun _ _ h => Option.some.inj h).mp hsame

/-- A run of checks is made default values, and the statement behind it does not continue it. -/
structure Folds (last : Option Nat) (defaults : List (Nat × Expr)) (run rest : List Stmt)
    (entries defaults' : List (Nat × Expr)) : Prop where
  isRun : IsRun defaults run entries
  above : ∀ p ∈ entries, ∀ i ∈ last, i < p.1
  stops : ∀ s ∈ rest.head?, ∀ index value, s.IsDefaultCheck index value →
    (∀ p ∈ entries, p.1 < index) → ¬ IsNext defaults last index
  perm : defaults'.Perm (defaults ++ entries)
  lookup : ∀ i, defaults'.lookup i = (entries.lookup i).or (defaults.lookup i)

namespace Folds

variable {last : Option Nat} {defaults entries defaults' : List (Nat × Expr)}
  {run rest : List Stmt}

/-- No check is folded where the first statement cannot be. -/
theorem nil (hstops : ∀ s ∈ rest.head?, ∀ index value, s.IsDefaultCheck index value →
    ¬ IsNext defaults last index) : Folds last defaults [] rest [] defaults where
  isRun := ⟨.nil, .nil, fun _ h => nomatch h⟩
  above _ h := nomatch h
  stops s hs index value hcheck _ := hstops s hs index value hcheck
  perm := by rw [List.append_nil]
  lookup i := rfl

/-- A check is folded in front of those that are folded after it. -/
theorem cons {s : Stmt} {index : Nat} {value : Expr} (hcheck : s.IsDefaultCheck index value)
    (hnext : IsNext defaults last index)
    (hfolds : Folds (some index) (putDefault index value defaults) run rest entries defaults') :
    Folds last defaults (s :: run) rest ((index, value) :: entries) defaults' := by
  have hhigher (p : Nat × Expr) (hp : p ∈ entries) : index < p.1 := hfolds.above p hp index rfl
  have hadded : (putDefault index value defaults).Perm ((index, value) :: defaults) :=
    perm_putDefault hnext.fresh
  refine ⟨⟨.cons hcheck hfolds.isRun.checks, ?_, ?_⟩, ?_, ?_, ?_, ?_⟩
  · exact List.pairwise_cons.mpr ⟨hhigher, hfolds.isRun.ascending⟩
  · intro p hp q hq
    rcases List.mem_cons.mp hp with rfl | hp
    · exact hnext.fresh q hq
    · exact hfolds.isRun.fresh p hp q (hadded.mem_iff.mpr (List.mem_cons_of_mem _ hq))
  · intro p hp i hi
    have hi := hnext.above i hi
    rcases List.mem_cons.mp hp with rfl | hp
    · exact hi
    · exact Nat.lt_trans hi (hhigher p hp)
  · intro s' hs' index' value' hcheck' hhighest hnext'
    -- The statement is above `index`, so that it is as fresh with the new default value as without.
    have hlower : index < index' := hhighest _ List.mem_cons_self
    refine hfolds.stops s' hs' index' value' hcheck'
      (fun p hp => hhighest p (List.mem_cons_of_mem _ hp)) ⟨fun q hq => ?_, ?_⟩
    · rcases List.mem_cons.mp (hadded.mem_iff.mp hq) with rfl | hq
      · exact Nat.ne_of_lt hlower
      · exact hnext'.fresh q hq
    · rintro i ⟨⟩
      exact hlower
  · calc defaults'
      _ |>.Perm (putDefault index value defaults ++ entries) := hfolds.perm
      _ |>.Perm ((index, value) :: defaults ++ entries) := hadded.append_right _
      _ |>.Perm (defaults ++ (index, value) :: entries) := List.perm_middle.symm
  · intro i
    have hnone : entries.lookup index = none := by
      rw [List.lookup_eq_none_iff]
      intro p hp
      exact bne_iff_ne.mpr (Nat.ne_of_lt (hhigher p hp))
    rw [hfolds.lookup, lookup_putDefault, List.lookup_cons]
    by_cases hi : i = index
    · subst hi
      simp [hnone]
    · simp [hi, beq_false_of_ne hi]

end Folds

/-- Folding checks takes a run and stops where the next statement does not continue it. -/
theorem exists_folds (last : Option Nat) (defaults : List (Nat × Expr)) (ss : List Stmt) :
    ∃ run entries, ss = run ++ (foldChecks last defaults ss).2 ∧
      Folds last defaults run (foldChecks last defaults ss).2 entries
        (foldChecks last defaults ss).1 := by
  fun_induction foldChecks last defaults ss with
  | case1 last defaults => exact ⟨[], [], rfl, .nil (by simp)⟩
  | case2 last defaults s rest index value hcheck hold =>
    refine ⟨[], [], rfl, .nil ?_⟩
    rintro s' ⟨⟩ index' value' hcheck' hnext
    obtain ⟨⟩ := (Stmt.defaultCheck?_eq_some_iff.mp hcheck).unique hcheck'
    exact isNext_iff.mp hnext hold
  | case3 last defaults s rest index value hcheck hnew ih =>
    obtain ⟨run, entries, hsplit, hfolds⟩ := ih
    refine ⟨s :: run, (index, value) :: entries, congrArg (s :: ·) hsplit, ?_⟩
    exact .cons (Stmt.defaultCheck?_eq_some_iff.mp hcheck) (isNext_iff.mpr hnew) hfolds
  | case4 last defaults s rest hcheck =>
    refine ⟨[], [], rfl, .nil ?_⟩
    rintro s' ⟨⟩ index' value' hcheck' -
    rw [Stmt.defaultCheck?_eq_some_iff.mpr hcheck'] at hcheck
    cases hcheck

/-- A run that begins where a folded run does is no longer than that one. -/
theorem Folds.length_le {defaults entries defaults' entries' : List (Nat × Expr)}
    {run rest run' : List Stmt} (hfolds : Folds none defaults run rest entries defaults')
    (hstarts : run' <+: run ++ rest) (hrun : IsRun defaults run' entries') :
    run'.length ≤ run.length := by
  by_contra hlonger
  obtain ⟨more, rfl⟩ : run <+: run' :=
    List.prefix_of_prefix_length_le (List.prefix_append run rest) hstarts (by omega)
  cases more with
  | nil => simp at hlonger
  | cons s more =>
    have hsame := hfolds.isRun.map_defaultCheck?
    have hmap := hrun.map_defaultCheck?
    rw [List.map_append, List.map_cons, hsame, eq_comm, List.map_eq_append_iff] at hmap
    obtain ⟨earlier, later, rfl, hearlier, hlater⟩ := hmap
    obtain rfl : earlier = entries := (List.map_inj_right fun _ _ h => Option.some.inj h).mp hearlier
    obtain ⟨⟨index, value⟩, later, rfl, hcheck, -⟩ := List.map_eq_cons_iff.mp hlater
    obtain ⟨-, -, hascending⟩ := List.pairwise_append.mp hrun.ascending
    have hhead : s ∈ rest.head? := by
      obtain ⟨after, hafter⟩ := (List.prefix_append_right_inj run).mp hstarts
      simp [← hafter]
    -- The statement behind the folded run would continue it, against `stops`.
    refine hfolds.stops s hhead index value (Stmt.defaultCheck?_eq_some_iff.mp hcheck.symm)
      (fun p hp => hascending p hp _ List.mem_cons_self) ⟨?_, fun _ h => nomatch h⟩
    exact hrun.fresh (index, value) (List.mem_append_right _ List.mem_cons_self)

/-- How a routine opens: the declarations of its local variables, then a run of checks, each as long
as it can be, then the rest. -/
structure Routine.Opens (r : Routine) (before run rest : List Stmt)
    (entries : List (Nat × Expr)) : Prop where
  split : r.body.statements = before ++ (run ++ rest)
  locals : ∀ s ∈ before, s.isLocals = true
  locals_longest : ∀ before', before' <+: r.body.statements →
    (∀ s ∈ before', s.isLocals = true) → before'.length ≤ before.length
  isRun : IsRun r.defaults run entries
  run_longest : ∀ run' entries', run' <+: run ++ rest → IsRun r.defaults run' entries' →
    run'.length ≤ run.length

/-- A run of statements from the start that declare local variables is no longer than the one that
is skipped. -/
theorem length_le_takeWhile_isLocals {ss before : List Stmt} (hstarts : before <+: ss)
    (hlocals : ∀ s ∈ before, s.isLocals = true) :
    before.length ≤ (ss.takeWhile Stmt.isLocals).length := by
  obtain ⟨rest, rfl⟩ := hstarts
  rw [List.takeWhile_append_of_pos hlocals, List.length_append]
  omega

namespace Routine

variable {r : Routine} {before run rest : List Stmt} {entries : List (Nat × Expr)}

/-- The local variables that are declared first are those that are skipped. -/
theorem Opens.before_eq (hopens : r.Opens before run rest entries) :
    r.body.statements.takeWhile Stmt.isLocals = before := by
  have hskipped : r.body.statements.takeWhile Stmt.isLocals <+: r.body.statements :=
    List.takeWhile_prefix _
  have hbefore : before <+: r.body.statements := ⟨run ++ rest, hopens.split.symm⟩
  have hle := hopens.locals_longest _ hskipped (List.all_eq_true.mp List.all_takeWhile)
  have hge := length_le_takeWhile_isLocals hbefore hopens.locals
  exact (List.prefix_of_prefix_length_le hskipped hbefore hle).eq_of_length (by omega)

/-- The run and the rest are what is left behind them. -/
theorem Opens.after_eq (hopens : r.Opens before run rest entries) :
    r.body.statements.dropWhile Stmt.isLocals = run ++ rest := by
  have hsplit := hopens.split
  rw [← List.takeWhile_append_dropWhile (p := Stmt.isLocals) (l := r.body.statements),
    hopens.before_eq] at hsplit
  exact List.append_cancel_left hsplit

/-- The run that is folded is the longest one. -/
theorem Opens.folds (hopens : r.Opens before run rest entries) :
    ∃ defaults, foldChecks none r.defaults (run ++ rest) = (defaults, rest) ∧
      Folds none r.defaults run rest entries defaults := by
  obtain ⟨run', entries', hsplit, hfolds⟩ := exists_folds none r.defaults (run ++ rest)
  have hle := hfolds.length_le (hsplit ▸ List.prefix_append run rest) hopens.isRun
  have hge := hopens.run_longest run' entries' (hsplit ▸ List.prefix_append run' _) hfolds.isRun
  obtain ⟨rfl, hrest⟩ := List.append_inj hsplit (by omega)
  obtain rfl : entries = entries' := hopens.isRun.unique hfolds.isRun
  rw [← hrest] at hfolds
  exact ⟨_, Prod.ext rfl hrest.symm, hfolds⟩

/-- What is done to a routine by the way it opens. -/
theorem Opens.foldDefaults_eq (hopens : r.Opens before run rest entries) :
    ∃ defaults, r.foldDefaults =
        { r with defaults := defaults, body := ⟨before ++ rest, r.body.braced⟩ } ∧
      Folds none r.defaults run rest entries defaults := by
  obtain ⟨defaults, hchecks, hfolds⟩ := hopens.folds
  refine ⟨defaults, ?_, hfolds⟩
  rw [foldDefaults, hopens.before_eq, hopens.after_eq, hchecks]

/-- Every routine opens in some way. -/
theorem exists_opens (r : Routine) : ∃ before run rest entries, r.Opens before run rest entries := by
  obtain ⟨run, entries, hsplit, hfolds⟩ :=
    exists_folds none r.defaults (r.body.statements.dropWhile Stmt.isLocals)
  refine ⟨_, run, _, entries, ?_, List.all_eq_true.mp List.all_takeWhile,
    fun _ => length_le_takeWhile_isLocals, hfolds.isRun, fun _ _ => hfolds.length_le⟩
  rw [← hsplit, List.takeWhile_append_dropWhile]

end Routine

/-- Folding takes exactly the longest run of checks behind the declarations of local variables: they
are no longer among the statements, the default values are those from before and one for each check
of the run, and nothing else of the routine is changed. -/
theorem foldDefaults_takes_longest_run (r : Routine) :
    (∃ before run rest entries, r.Opens before run rest entries) ∧
    ∀ before run rest entries, r.Opens before run rest entries →
      ∃ defaults, r.foldDefaults =
          { r with defaults := defaults, body := ⟨before ++ rest, r.body.braced⟩ } ∧
        defaults.Perm (r.defaults ++ entries) ∧
        (∀ index, defaults.lookup index = (entries.lookup index).or (r.defaults.lookup index)) ∧
        (r.defaults.Pairwise (·.1 < ·.1) → defaults.Pairwise (·.1 < ·.1)) := by
  refine ⟨r.exists_opens, fun before run rest entries hopens => ?_⟩
  obtain ⟨defaults, hfold, hfolds⟩ := hopens.foldDefaults_eq
  refine ⟨defaults, hfold, hfolds.perm, hfolds.lookup, fun hascending => ?_⟩
  have hdefaults : r.foldDefaults.defaults = defaults := by rw [hfold]
  rw [← hdefaults]
  exact ascending_foldChecks none _ hascending

namespace Sample

/-- An argument by its name. -/
def argument (name : String) : Access where
  target := ⟨name, .argument⟩
  owner := .ofShape (.keyword .argument)

/-- The statement `if (argument == undefined) argument = value`. -/
def check (a : Access) (value : Int16) : Stmt :=
  .branch (.ofShape (.binary (.compare .equal .variable .variable) (.ofShape (.access a))
      (.ofShape (.access undefinedAccess))))
    ⟨[.assign (.ofShape (.access a)) (.ofShape (.int16 value))], true⟩ none

/-- The sample is a check for the argument, with the value as the default. -/
theorem check_isDefaultCheck {a : Access} {index : Nat} (hindex : a.argumentIndex? = some index)
    (value : Int16) : (check a value).IsDefaultCheck index (.ofShape (.int16 value)) :=
  ⟨.compare .equal .variable .variable, a, undefinedAccess, a, .intro rfl rfl rfl rfl,
    ⟨rfl, rfl, rfl⟩, hindex, hindex⟩

/-- Checks of two arguments, the first one first. -/
def inOrderChecks : List Stmt :=
  [check (argument "argument0") 1, check (argument "argument1") 2]

/-- The default values that they give. -/
def inOrderDefaults : List (Nat × Expr) :=
  [(0, .ofShape (.int16 1)), (1, .ofShape (.int16 2))]

/-- A function with a local variable and both checks. -/
def inOrder : Routine where
  name := some "fill"
  body := ⟨.locals ["step"] :: inOrderChecks ++ [.exit], true⟩
  fragment := { codeName := "gml_Script_fill", name := some "fill", maxArgument := 1 }

/-- The checks are in order, so that all of them are in the run. -/
theorem inOrder_opens :
    inOrder.Opens [.locals ["step"]] inOrderChecks [.exit] inOrderDefaults := by
  have hstops : ∀ s ∈ [Stmt.exit].head?, ∀ index value, s.IsDefaultCheck index value →
      ¬ IsNext (putDefault 1 (.ofShape (.int16 2)) (putDefault 0 (.ofShape (.int16 1)) [])) (some 1)
        index := by
    rintro s ⟨⟩ index value hcheck
    exact absurd hcheck (Stmt.exit_not_isDefaultCheck index value)
  have hsecond : Folds (some 0) _ [check (argument "argument1") 2] [.exit] [(1, _)] _ :=
    .cons (check_isDefaultCheck (by decide) 2) ⟨by decide, by decide⟩ (.nil hstops)
  have hfolds : Folds none [] inOrderChecks [.exit] inOrderDefaults _ :=
    .cons (check_isDefaultCheck (by decide) 1) ⟨nofun, nofun⟩ hsecond
  exact ⟨rfl, by simp [Stmt.isLocals], fun _ => length_le_takeWhile_isLocals, hfolds.isRun,
    fun _ _ => hfolds.length_le⟩

end Sample

open Sample

/-- Both checks become default values. The declaration before and the statement after them stay. -/
theorem foldDefaults_takes_longest_run_inOrder :
    inOrder.Opens [.locals ["step"]] inOrderChecks [.exit] inOrderDefaults ∧
      inOrder.foldDefaults.body = ⟨[.locals ["step"], .exit], true⟩ ∧
      ∀ index, inOrder.foldDefaults.defaults.lookup index = inOrderDefaults.lookup index := by
  obtain ⟨-, htakes⟩ := foldDefaults_takes_longest_run inOrder
  obtain ⟨defaults, hfold, -, hlookup, -⟩ := htakes _ _ _ _ inOrder_opens
  refine ⟨inOrder_opens, by rw [hfold]; rfl, fun index => ?_⟩
  rw [hfold, hlookup]
  exact Option.or_none

/-- A check declares no local variables. -/
theorem Stmt.IsDefaultCheck.isLocals_eq_false {s : Stmt} {index : Nat} {value : Expr}
    (hcheck : s.IsDefaultCheck index value) : s.isLocals = false := by
  obtain ⟨operator, left, right, target, hchecks, -⟩ := hcheck
  cases hchecks
  rfl

/-- Nothing is folded if the first statement is not a check that can be folded. -/
theorem foldChecks_eq_self {last : Option Nat} {defaults : List (Nat × Expr)} {ss : List Stmt}
    (hstops : ∀ s ∈ ss.head?, ∀ index value, s.IsDefaultCheck index value →
      ¬ IsNext defaults last index) : foldChecks last defaults ss = (defaults, ss) := by
  cases ss with
  | nil => rfl
  | cons s rest =>
    rw [foldChecks]
    cases hcheck : s.defaultCheck? with
    | none => rfl
    | some p =>
      have hnot := hstops s rfl p.1 p.2 (Stmt.defaultCheck?_eq_some_iff.mp hcheck)
      rw [isNext_iff, not_not] at hnot
      exact if_pos hnot

/-- Folding leaves a routine alone exactly if the statement behind its local variables is not a
check of an argument that has no default value. -/
theorem Routine.foldDefaults_eq_self_iff {r : Routine} :
    r.foldDefaults = r ↔
      ∀ before s more index value, r.body.statements = before ++ s :: more →
        (∀ t ∈ before, t.isLocals = true) → s.IsDefaultCheck index value →
        ∃ q ∈ r.defaults, q.1 = index := by
  constructor
  · intro hsame before s more index value hbody hbefore hcheck
    by_contra hnone
    have hnext : IsNext r.defaults none index :=
      ⟨fun q hq hindex => hnone ⟨q, hq, hindex⟩, fun _ h => nomatch h⟩
    have hfold := r.foldDefaults_eq hbody hbefore hcheck.isLocals_eq_false
    have hkept : (foldChecks none r.defaults (s :: more)).2 = s :: more := by
      have hstatements := congrArg (·.body.statements) (hfold.symm.trans hsame)
      exact List.append_cancel_left (hstatements.trans hbody)
    rw [foldChecks, Stmt.defaultCheck?_eq_some_iff.mpr hcheck] at hkept
    dsimp only at hkept
    rw [if_neg (isNext_iff.mp hnext)] at hkept
    -- What is left of `more` would have to be longer than `more`.
    obtain ⟨run, entries, hsplit, -⟩ :=
      exists_folds (some index) (putDefault index value r.defaults) more
    have hlength := congrArg List.length hsplit
    rw [hkept, List.length_append, List.length_cons] at hlength
    omega
  · intro hchecked
    have hstops : ∀ s ∈ (r.body.statements.dropWhile Stmt.isLocals).head?, ∀ index value,
        s.IsDefaultCheck index value → ¬ IsNext r.defaults none index := by
      intro s hs index value hcheck hnext
      obtain ⟨more, hmore⟩ := List.head?_eq_some_iff.mp hs
      have hbody := List.takeWhile_append_dropWhile (p := Stmt.isLocals) (l := r.body.statements)
      rw [hmore] at hbody
      obtain ⟨q, hq, hindex⟩ := hchecked _ s more index value hbody.symm
        (List.all_eq_true.mp List.all_takeWhile) hcheck
      exact hnext.fresh q hq hindex
    rw [foldDefaults, foldChecks_eq_self hstops]
    dsimp only
    rw [List.takeWhile_append_dropWhile]
    obtain ⟨_, _, ⟨⟩, _⟩ := r
    rfl

/-- Statements that declare local variables are skipped before another one is looked at. -/
theorem append_cons_eq_append_iff {before before' rest more : List Stmt} {s : Stmt}
    (hbefore : ∀ t ∈ before, t.isLocals = true) (hbefore' : ∀ t ∈ before', t.isLocals = true)
    (hs : s.isLocals = false) :
    before ++ rest = before' ++ s :: more ↔
      ∃ locals, before' = before ++ locals ∧ rest = locals ++ s :: more := by
  constructor
  · intro hsplit
    rcases List.append_eq_append_iff.mp hsplit with ⟨locals, rfl, hrest⟩ | ⟨extra, rfl, hmore⟩
    · exact ⟨locals, rfl, hrest⟩
    · cases extra with
      | nil => exact ⟨[], by simp, by simpa using hmore.symm⟩
      | cons first extra =>
        cases hmore
        have hfirst := hbefore s (by simp)
        rw [hs] at hfirst
        cases hfirst
  · rintro ⟨locals, rfl, rfl⟩
    rw [List.append_assoc]

/-- Folding again changes nothing exactly if what is left behind the run does not begin, after its
own declarations of local variables, with a check of an argument that has no default value by
then. -/
theorem foldDefaults_idempotent_iff {r : Routine} {before run rest : List Stmt}
    {entries : List (Nat × Expr)} (hopens : r.Opens before run rest entries) :
    r.foldDefaults.foldDefaults = r.foldDefaults ↔
      ∀ locals s more index value, rest = locals ++ s :: more →
        (∀ t ∈ locals, t.isLocals = true) → s.IsDefaultCheck index value →
        ∃ q ∈ r.defaults ++ entries, q.1 = index := by
  obtain ⟨defaults, hfold, hfolds⟩ := hopens.foldDefaults_eq
  rw [Routine.foldDefaults_eq_self_iff, hfold]
  dsimp only
  constructor
  · intro hchecked locals s more index value hrest hlocals hcheck
    have hskipped : ∀ t ∈ before ++ locals, t.isLocals = true :=
      List.forall_mem_append.mpr ⟨hopens.locals, hlocals⟩
    obtain ⟨q, hq, hindex⟩ := hchecked (before ++ locals) s more index value
      (by rw [hrest, List.append_assoc]) hskipped hcheck
    exact ⟨q, hfolds.perm.mem_iff.mp hq, hindex⟩
  · intro hchecked before' s more index value hbody hbefore' hcheck
    obtain ⟨locals, rfl, hrest⟩ := (append_cons_eq_append_iff hopens.locals hbefore'
      hcheck.isLocals_eq_false).mp hbody
    have hlocals := (List.forall_mem_append.mp hbefore').2
    obtain ⟨q, hq, hindex⟩ := hchecked locals s more index value hrest hlocals hcheck
    exact ⟨q, hfolds.perm.mem_iff.mpr hq, hindex⟩

/-- Nothing is left for a second folding, as no check follows the run. -/
theorem foldDefaults_idempotent_iff_inOrder :
    inOrder.Opens [.locals ["step"]] inOrderChecks [.exit] inOrderDefaults ∧
      inOrder.foldDefaults.foldDefaults = inOrder.foldDefaults := by
  refine ⟨inOrder_opens, (foldDefaults_idempotent_iff inOrder_opens).mpr ?_⟩
  intro locals s more index value hrest hlocals hcheck
  obtain ⟨rfl, -⟩ : s = .exit ∧ locals = [] := by
    cases locals <;> simp_all
  exact absurd hcheck (Stmt.exit_not_isDefaultCheck index value)

namespace Sample

/-- A function that gives its second argument a value before its first one. -/
def lastFirst : Routine where
  name := some "fill"
  body := ⟨[check (argument "argument1") 1, check (argument "argument0") 2, .exit], true⟩
  fragment := { codeName := "gml_Script_fill", name := some "fill", maxArgument := 1 }

/-- A function that declares a local variable between two checks. -/
def declaresBetween : Routine where
  name := some "fill"
  body := ⟨[check (argument "argument0") 1, .locals ["step"], check (argument "argument1") 2], true⟩
  fragment := { codeName := "gml_Script_fill", name := some "fill", maxArgument := 1 }

end Sample

/-- Folding again takes the check that was left because of its lower index, or because of the local
variables before it. -/
theorem second_fold_takes_more :
    (lastFirst.foldDefaults.body = ⟨[check (argument "argument0") 2, .exit], true⟩ ∧
      lastFirst.foldDefaults.defaults = [(1, .ofShape (.int16 1))] ∧
      lastFirst.foldDefaults.foldDefaults.body = ⟨[.exit], true⟩ ∧
      lastFirst.foldDefaults.foldDefaults.defaults =
        [(0, .ofShape (.int16 2)), (1, .ofShape (.int16 1))]) ∧
    (declaresBetween.foldDefaults.body =
        ⟨[.locals ["step"], check (argument "argument1") 2], true⟩ ∧
      declaresBetween.foldDefaults.foldDefaults.body = ⟨[.locals ["step"]], true⟩) ∧
    ¬ ∀ r : Routine, r.foldDefaults.foldDefaults.body = r.foldDefaults.body ∧
      r.foldDefaults.foldDefaults.defaults = r.foldDefaults.defaults := by
  refine ⟨⟨rfl, rfl, rfl, rfl⟩, ⟨rfl, rfl⟩, fun hidempotent => ?_⟩
  have hlength := congrArg List.length (hidempotent lastFirst).2
  exact absurd hlength (by decide)

end GmlDecompiler

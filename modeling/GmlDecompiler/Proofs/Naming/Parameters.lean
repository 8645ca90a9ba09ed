import GmlDecompiler.Proofs.Naming.Arguments
import GmlDecompiler.Proofs.Naming.Contents

/-!
# The parameters of a routine

A routine is finished once its parts are tidied. Checks for missing arguments become default
values, which moves what they contain and adds nothing; then one parameter is named for every
argument up to the highest one. A routine whose fragment knows all arguments that it refers to
has all of them among its parameters.
-/

namespace GmlDecompiler

/-- The fragment has a name for the argument that an access reads, if it reads one; the access
shows it. -/
def Fragment.Knows (f : Fragment) (a : Access) : Prop :=
  ∀ i, a.argumentIndex? = some i →
    (∃ name, a.argumentName = some name ∧ f.naming.byIndex[i]? = some name) ∧
      Int32.ofNat i ≤ f.maxArgument

/-- What a fragment knows it knows when it has grown. -/
theorem Fragment.Grows.knows {named : Prop} {f f' : Fragment} (hgrows : f.Grows named f')
    {a : Access} (ha : f.Knows a) : f'.Knows a := by
  intro i hi
  obtain ⟨⟨name, hname, hbyIndex⟩, hmax⟩ := ha i hi
  exact ⟨⟨name, hname, hgrows.kept hbyIndex⟩, Int32.le_trans hmax hgrows.max_le⟩

namespace Routine

/-- The parameters of a routine are apart from each other and from its local variables, and they
name every argument that the routine refers to or has a default value for. -/
structure WellNamed (r : Routine) : Prop where
  nodup : r.parameters.Nodup
  apart : ∀ name ∈ r.parameters, name ∉ r.fragment.locals
  named : ∀ a ∈ r.contents.accesses, ∀ i, a.argumentIndex? = some i →
    i < r.parameters.length ∧ a.argumentName = r.parameters[i]?
  defaults : ∀ p ∈ r.defaults, p.1 < r.parameters.length

/-- The routine has a use for a parameter with this index: it refers to the argument, or it has a
default value for it. -/
def Uses (r : Routine) (index : Nat) : Prop :=
  r.contents.Refers index ∨ ∃ value, (index, value) ∈ r.defaults

/-- There can be a parameter for each argument that the routine uses: its index is below the limit,
and so is the highest argument that the fragment of the routine has noted. -/
def ArgumentsFit (r : Routine) : Prop :=
  ∀ index, r.Uses index →
    index < Fragment.indexLimit ∧ r.fragment.maxArgument.toInt < Fragment.indexLimit

/-- Every argument that the routine refers to has an index below the limit. -/
def SmallIndices (r : Routine) : Prop :=
  ∀ i, r.contents.Refers i → i < Fragment.indexLimit

end Routine

/-- A variable contains its own access. -/
theorem Expr.mem_accesses_of_access? {e : Expr} {a : Access} (ha : e.access? = some a) :
    a ∈ e.contents.accesses := by
  unfold Expr.access? at ha
  split at ha
  · rename_i target hshape
    cases ha
    rw [Expr.contents_eq, hshape, Shape.contents, Access.contents_eq]
    simp
  · cases ha

/-- A check for a missing argument refers to the argument, and the default value is part of
it. -/
theorem Stmt.defaultCheck?_eq_some {s : Stmt} {p : Nat × Expr} (hcheck : s.defaultCheck? = some p) :
    p.2.contents.Within s.contents ∧ ∃ a ∈ s.contents.accesses, a.argumentIndex? = some p.1 := by
  unfold Stmt.defaultCheck? at hcheck
  split at hcheck
  · rename_i condition target value _
    split at hcheck
    · rename_i operator left right hshape
      split at hcheck
      · rename_i argument undefined hargument _
        obtain ⟨index, hindex, hcheck⟩ := Option.bind_eq_some_iff.mp hcheck
        split at hcheck
        · cases hcheck
          have hcondition : left.contents.Within condition.contents := by
            rw [condition.contents_eq, hshape]
            exact .left _ _
          refine ⟨?_, argument, ?_, hindex⟩
          · have hassign : value.contents.Within (Stmt.assign target value).contents := .right _ _
            have hbody := hassign.trans (Stmt.contents_within (List.mem_singleton_self _))
            exact (hbody.trans (.right condition.contents _)).trans (.left _ _)
          · have hmem := hcondition.accesses (Expr.mem_accesses_of_access? hargument)
            simp [Stmt.contents, hmem]
        · cases hcheck
      · cases hcheck
    · cases hcheck
  · cases hcheck

/-- A default value that is put at its place is there, and no other is new. -/
theorem eq_or_mem_of_mem_putDefault {index : Nat} {value : Expr} {defaults : List (Nat × Expr)}
    {p : Nat × Expr} (hp : p ∈ putDefault index value defaults) :
    p = (index, value) ∨ p ∈ defaults := by
  induction defaults with
  | nil => exact .inl (List.mem_singleton.mp hp)
  | cons first rest ih =>
    rw [putDefault] at hp
    split at hp
    · exact List.mem_cons.mp hp
    · split at hp
      · exact (List.mem_cons.mp hp).imp_right (List.mem_cons_of_mem _)
      · rcases List.mem_cons.mp hp with rfl | hp
        · exact .inr List.mem_cons_self
        · exact (ih hp).imp_right (List.mem_cons_of_mem _)

/-- Folding moves checks from the statements to the defaults and leaves the rest of the
statements. -/
theorem foldChecks_spec (last : Option Nat) (defaults : List (Nat × Expr)) (ss : List Stmt) :
    (∀ p ∈ (foldChecks last defaults ss).1,
      p ∈ defaults ∨ ∃ s ∈ ss, s.defaultCheck? = some p) ∧
    ∀ s ∈ (foldChecks last defaults ss).2, s ∈ ss := by
  fun_induction foldChecks last defaults ss with
  | case1 => exact ⟨fun p hp => .inl hp, fun s hs => hs⟩
  | case2 => exact ⟨fun p hp => .inl hp, fun s hs => hs⟩
  | case3 last defaults s rest index value hcheck hnew ih =>
    refine ⟨fun p hp => ?_, fun s hs => List.mem_cons_of_mem _ (ih.2 s hs)⟩
    rcases ih.1 p hp with hput | ⟨s', hs', hcheck'⟩
    · rcases eq_or_mem_of_mem_putDefault hput with rfl | hold
      · exact .inr ⟨s, List.mem_cons_self, hcheck⟩
      · exact .inl hold
    · exact .inr ⟨s', List.mem_cons_of_mem _ hs', hcheck'⟩
  | case4 => exact ⟨fun p hp => .inl hp, fun s hs => hs⟩

/-- Folding adds nothing to the body of a routine. -/
theorem Routine.foldDefaults_body_within (r : Routine) :
    r.foldDefaults.body.contents.Within r.body.contents := by
  rw [Block.contents_eq, Block.contents_eq]
  apply stmtContents_within
  intro s hs
  apply Stmt.contents_within
  rw [← List.takeWhile_append_dropWhile (p := Stmt.isLocals) (l := r.body.statements)]
  rcases List.mem_append.mp hs with hbefore | hrest
  · exact List.mem_append_left _ hbefore
  · exact List.mem_append_right _ ((foldChecks_spec _ _ _).2 s hrest)

/-- Every default value that is found comes from a check in the body. -/
theorem Routine.mem_foldDefaults {r : Routine} (hdefaults : r.defaults = []) {p : Nat × Expr}
    (hp : p ∈ r.foldDefaults.defaults) :
    p.2.contents.Within r.body.contents ∧
      ∃ a ∈ r.body.contents.accesses, a.argumentIndex? = some p.1 := by
  rcases (foldChecks_spec _ _ _).1 p hp with hold | ⟨s, hs, hcheck⟩
  · rw [hdefaults] at hold
    cases hold
  · have hbody : s ∈ r.body.statements := (List.dropWhile_sublist _).subset hs
    have hwithin := Stmt.contents_within hbody
    rw [← Block.contents_eq] at hwithin
    obtain ⟨hvalue, a, ha, hindex⟩ := Stmt.defaultCheck?_eq_some hcheck
    exact ⟨hvalue.trans hwithin, a, hwithin.accesses ha, hindex⟩

namespace Config

/-- A routine as it is before its parameters are named. -/
def foldRoutine (c : Config) (r : Routine) : Routine :=
  if c.settings.foldDefaults then r.foldDefaults else r

/-- Before its parameters are named, a routine contains what it contained. -/
theorem foldRoutine_within (c : Config) {r : Routine} (hdefaults : r.defaults = []) :
    (c.foldRoutine r).contents.Within r.innerContents := by
  unfold foldRoutine
  split
  · rw [Routine.contents_eq, Routine.innerContents_eq, Routine.innerContents_eq]
    refine .join (.append r.foldDefaults_body_within (.refl _)) ?_
    exact (defaultContents_within fun p hp => (Routine.mem_foldDefaults hdefaults hp).1).trans
      (.left _ _)
  · rw [Routine.contents_eq, hdefaults]
    exact .join (.refl _) (.empty _)

/-- A default value stands for an argument that the routine referred to. -/
theorem exists_access_of_mem_defaults (c : Config) {r : Routine} (hdefaults : r.defaults = [])
    {p : Nat × Expr} (hp : p ∈ (c.foldRoutine r).defaults) :
    ∃ a ∈ r.innerContents.accesses, a.argumentIndex? = some p.1 := by
  unfold foldRoutine at hp
  split at hp
  · obtain ⟨-, a, ha, hindex⟩ := Routine.mem_foldDefaults hdefaults hp
    rw [Routine.innerContents_eq]
    exact ⟨a, List.mem_append_left _ ha, hindex⟩
  · rw [hdefaults] at hp
    cases hp

/-- Folding default values does not touch the fragment, so the highest argument is the one that was
noted before. -/
theorem foldRoutine_fragment (c : Config) (r : Routine) :
    (c.foldRoutine r).fragment = r.fragment := by
  unfold foldRoutine
  split <;> rfl

/-- Finishing a routine that is no struct literal marks it for empty lines and names its
parameters. -/
theorem finishRoutine_eq (c : Config) {r : Routine} (hstruct : r.fragment.isStruct = false) :
    c.finishRoutine r =
      { c.foldRoutine r with
        blankBefore := c.settings.blankAroundRoutines
        blankAfter := c.settings.blankAroundRoutines
        parameters := (c.parameters r.fragment.parameterCount 0 r.fragment).1
        fragment := (c.parameters r.fragment.parameterCount 0 r.fragment).2 } := by
  simp only [finishRoutine, hstruct, foldRoutine, Bool.false_eq_true, if_false]
  cases c.settings.foldDefaults <;> rfl

/-- Naming parameters changes nothing that a routine contains. -/
theorem contents_finishRoutine (c : Config) {r : Routine} (hstruct : r.fragment.isStruct = false) :
    (c.finishRoutine r).innerContents = (c.foldRoutine r).innerContents ∧
      (c.finishRoutine r).contents = (c.foldRoutine r).contents := by
  have heq := c.finishRoutine_eq hstruct
  have hparent :
      (c.finishRoutine r).fragment.parentCall = (c.foldRoutine r).fragment.parentCall := by
    rw [heq, foldRoutine_fragment]
    exact (c.grows_parameters _ _ _ True).parentCall_eq
  have hbody : (c.finishRoutine r).body = (c.foldRoutine r).body := by rw [heq]
  have hdefaults : (c.finishRoutine r).defaults = (c.foldRoutine r).defaults := by rw [heq]
  have hinner : (c.finishRoutine r).innerContents = (c.foldRoutine r).innerContents := by
    rw [Routine.innerContents_eq, Routine.innerContents_eq, hparent, hbody]
  exact ⟨hinner, by rw [Routine.contents_eq, Routine.contents_eq, hinner, hdefaults]⟩

/-- The body of a struct literal is left as it is. -/
theorem finishRoutine_of_isStruct (c : Config) {r : Routine}
    (hstruct : r.fragment.isStruct = true) : c.finishRoutine r = r := by
  simp [finishRoutine, hstruct]

/-- Finishing a routine does not make a function of the body of a struct literal. -/
theorem isStruct_of_finishRoutine (c : Config) {r : Routine}
    (hfinished : (c.finishRoutine r).fragment.isStruct = false) : r.fragment.isStruct = false := by
  cases hstruct : r.fragment.isStruct with
  | false => rfl
  | true => rwa [c.finishRoutine_of_isStruct hstruct, hstruct] at hfinished

/-- Finishing a routine adds nothing to its scope. -/
theorem finishRoutine_within (c : Config) (r : Routine) :
    (c.finishRoutine r).innerContents.Within r.innerContents := by
  cases hstruct : r.fragment.isStruct with
  | true =>
    rw [c.finishRoutine_of_isStruct hstruct]
    exact .refl _
  | false =>
    rw [(c.contents_finishRoutine hstruct).1, Routine.innerContents_eq, Routine.innerContents_eq,
      foldRoutine_fragment]
    refine .append ?_ (.refl _)
    unfold foldRoutine
    split
    · exact r.foldDefaults_body_within
    · exact .refl _

/-- A finished routine contains no more than was in its scope. The default values come from the
body. -/
theorem finishRoutine_contents_within (c : Config) {r : Routine} (hdefaults : r.defaults = []) :
    (c.finishRoutine r).contents.Within r.innerContents := by
  cases hstruct : r.fragment.isStruct with
  | true =>
    rw [c.finishRoutine_of_isStruct hstruct, Routine.contents_eq, hdefaults]
    exact .join (.refl _) (.empty _)
  | false =>
    rw [(c.contents_finishRoutine hstruct).2]
    exact c.foldRoutine_within hdefaults

/-- Finishing a routine leaves the values of its struct arguments. -/
theorem structArguments_finishRoutine (c : Config) (r : Routine) :
    (c.finishRoutine r).fragment.structArguments = r.fragment.structArguments := by
  cases hstruct : r.fragment.isStruct with
  | true => rw [c.finishRoutine_of_isStruct hstruct]
  | false =>
    have heq := c.finishRoutine_eq hstruct
    rw [heq]
    exact (c.grows_parameters _ _ _ True).structArguments_eq

variable {c : Config} {r : Routine}

/-- A function that is finished has the highest argument that it had, and its parameters are counted
by it. -/
theorem finishRoutine_counts (c : Config) {r : Routine} (hstruct : r.fragment.isStruct = false) :
    (c.finishRoutine r).fragment.maxArgument = r.fragment.maxArgument ∧
      (c.finishRoutine r).parameters.length = r.fragment.parameterCount := by
  obtain ⟨hlength, hmax⟩ := c.parameters_size r.fragment.parameterCount 0 r.fragment
  rw [c.finishRoutine_eq hstruct]
  exact ⟨hmax, hlength⟩

/-- The parameter for an argument that a fragment knows is the name that the argument is shown
by. -/
theorem argumentName_eq_parameter (hnamed : c.dialect.namedArguments = true) {f : Fragment}
    {a : Access} (ha : f.Knows a) {i : Nat} (hi : a.argumentIndex? = some i)
    (hlt : i < f.parameterCount) :
    a.argumentName = (c.parameters f.parameterCount 0 f).1[i]? := by
  have hgrows := c.grows_parameters f.parameterCount 0 f True
  obtain ⟨⟨name, hshown, hname⟩, -⟩ := ha i hi
  have hkept := hgrows.kept hname
  have hparameter := parameters_spec hnamed f.parameterCount 0 f i hlt
  rw [Nat.zero_add, hkept] at hparameter
  exact hshown.trans hparameter

/-- The parameters of a consistent fragment are apart from each other and from its local
variables. -/
theorem parameters_apart (hnamed : c.dialect.namedArguments = true) {f : Fragment}
    (hconsistent : f.naming.Consistent f.locals) :
    (c.parameters f.parameterCount 0 f).1.Nodup ∧
      ∀ name ∈ (c.parameters f.parameterCount 0 f).1,
        name ∉ (c.parameters f.parameterCount 0 f).2.locals := by
  obtain ⟨hlength, -⟩ := c.parameters_size f.parameterCount 0 f
  have hparameters := parameters_spec hnamed f.parameterCount 0 f
  have hgrows := c.grows_parameters f.parameterCount 0 f True
  have hfinal := hgrows.consistent hconsistent
  have hname {i : Nat} {name : String}
      (hi : (c.parameters f.parameterCount 0 f).1[i]? = some name) :
      (c.parameters f.parameterCount 0 f).2.naming.byIndex[i]? = some name := by
    obtain ⟨hlt, -⟩ := List.getElem?_eq_some_iff.mp hi
    have hparameter := hparameters i (by omega)
    rwa [Nat.zero_add, hi] at hparameter
  refine ⟨?_, ?_⟩
  · refine List.pairwise_iff_getElem.mpr fun i j hi hj hij heq => ?_
    have hi := List.getElem?_eq_getElem hi
    have hj := List.getElem?_eq_getElem hj
    rw [heq] at hi
    have hsame := hfinal.once (hname hi) (hname hj)
    omega
  · intro name hmem
    obtain ⟨i, hi⟩ := List.mem_iff_getElem?.mp hmem
    exact hfinal.apart (hname hi)

/-- Every argument that a finished routine uses was referred to when its parts were tidied. -/
theorem exists_access_of_uses (hstruct : r.fragment.isStruct = false) (hdefaults : r.defaults = [])
    {index : Nat} (huses : (c.finishRoutine r).Uses index) :
    ∃ a ∈ r.innerContents.accesses, a.argumentIndex? = some index := by
  rcases huses with ⟨a, ha, hindex⟩ | ⟨value, hvalue⟩
  · rw [(c.contents_finishRoutine hstruct).2] at ha
    exact ⟨a, (c.foldRoutine_within hdefaults).accesses ha, hindex⟩
  · rw [c.finishRoutine_eq hstruct] at hvalue
    exact c.exists_access_of_mem_defaults hdefaults hvalue

/-- A routine whose fragment knows the arguments that it refers to is well-named when it is
finished, exactly if its arguments fit. -/
theorem wellNamed_finishRoutine_iff (hnamed : c.dialect.namedArguments = true)
    (hstruct : r.fragment.isStruct = false) (hdefaults : r.defaults = [])
    (hconsistent : r.fragment.naming.Consistent r.fragment.locals)
    (hknown : ∀ a ∈ r.innerContents.accesses, r.fragment.Knows a) :
    (c.finishRoutine r).WellNamed ↔ (c.finishRoutine r).ArgumentsFit := by
  have heq := c.finishRoutine_eq hstruct
  obtain ⟨hmax, hlength⟩ := c.finishRoutine_counts hstruct
  -- the number of parameters and the limit say the same of an argument that is used
  have hcount (index : Nat) (huses : (c.finishRoutine r).Uses index) :
      index < (c.finishRoutine r).parameters.length ↔ index < Fragment.indexLimit ∧
        (c.finishRoutine r).fragment.maxArgument.toInt < Fragment.indexLimit := by
    obtain ⟨a, ha, hindex⟩ := exists_access_of_uses hstruct hdefaults huses
    have hnoted := (hknown a ha index hindex).2
    rw [hlength, hmax]
    exact Fragment.lt_parameterCount_iff hnoted
  constructor
  · intro hwell index huses
    apply (hcount index huses).mp
    rcases huses with ⟨a, ha, hindex⟩ | ⟨value, hvalue⟩
    · exact (hwell.named a ha index hindex).1
    · exact hwell.defaults _ hvalue
  · intro hfit
    have hlt (index : Nat) (huses : (c.finishRoutine r).Uses index) :
        index < (c.finishRoutine r).parameters.length :=
      (hcount index huses).mpr (hfit index huses)
    obtain ⟨hnodup, hapart⟩ := parameters_apart (c := c) hnamed hconsistent
    have hparameters : (c.finishRoutine r).parameters =
        (c.parameters r.fragment.parameterCount 0 r.fragment).1 := by rw [heq]
    constructor
    · rw [hparameters]
      exact hnodup
    · rw [heq]
      exact hapart
    · intro a ha index hindex
      have hindexLt := hlt index (.inl ⟨a, ha, hindex⟩)
      refine ⟨hindexLt, ?_⟩
      rw [(c.contents_finishRoutine hstruct).2] at ha
      have hknows := hknown a ((c.foldRoutine_within hdefaults).accesses ha)
      rw [hlength] at hindexLt
      rw [hparameters]
      exact argumentName_eq_parameter hnamed hknows hindex hindexLt
    · intro p hp
      exact hlt p.1 (.inr ⟨p.2, hp⟩)

end Config

end GmlDecompiler

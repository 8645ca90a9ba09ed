import GmlDecompiler.Program
import GmlDecompiler.Proofs.Naming.Tidying

/-!
# The parameters of decompiled functions

An entry is built, which gives a tree of new routines, and tidied, which names them. Putting the
two together shows that the parameters of every function in the result fit what the function
does with its arguments.
-/

namespace GmlDecompiler

/-- Declaring the enums adds no variable and no routine. -/
theorem Config.declareEnums_within {c : Config} {root root' : Stmt}
    (hrun : c.declareEnums root = .ok root') : root'.contents.Within root.contents := by
  unfold Config.declareEnums at hrun
  split at hrun
  · rename_i block
    cases hrun
    apply stmtContents_within
    intro s hs
    have hparts : s ∈ c.enums.map (fun e => Stmt.enum (EnumDecl.tidy c { definition := e })) ∨
        s ∈ block.statements := by
      split at hs
      · exact List.mem_append.mp hs
      · exact (List.mem_append.mp hs).symm
    rcases hparts with henum | hs
    · obtain ⟨e, -, rfl⟩ := List.mem_map.mp henum
      exact .empty _
    · rw [Stmt.contents, block.contents_eq]
      exact Stmt.contents_within hs
  · cases hrun

/-- A decompiled entry was built and tidied. -/
theorem Config.decompile_eq_ok {c : Config} {entry : Entry} {d : Decompiled}
    (hrun : c.decompile entry = .ok d) :
    ∃ block f root f', entry.build c.dialect = .ok (block, f) ∧
      c.tidyEntry (.block block) f = .ok (root, f') ∧ d = ⟨root, f'⟩ := by
  unfold Config.decompile Except.mapError at hrun
  split at hrun
  case h_1 => cases hrun
  case h_2 result hresult =>
    cases hrun
    obtain ⟨⟨block, f⟩, hbuild, hresult⟩ := exists_of_bind_eq_ok hresult
    obtain ⟨⟨root, f'⟩, htidy, hresult⟩ := exists_of_bind_eq_ok hresult
    cases hresult
    exact ⟨block, f, root, f', hbuild, htidy, rfl⟩

/-- Every function in a decompiled entry is a routine of the entry as it was built, tidied. -/
theorem Config.namedFrom_of_decompile {c : Config} (hnamed : c.dialect.namedArguments = true)
    {entry : Entry} {d : Decompiled} (hrun : c.decompile entry = .ok d) :
    ∃ block f, entry.build c.dialect = .ok (block, f) ∧
      ∀ r ∈ d.root.contents.routines, r.NamedFrom c block.contents.routines := by
  obtain ⟨block, f, root, f', hbuild, htidy, rfl⟩ := Config.decompile_eq_ok hrun
  obtain ⟨hf, hnew⟩ := Entry.build_isNew hbuild
  obtain ⟨root₁, f₁, hroot₁, hpasses⟩ := (Stmt.block block).tidy_passes c [] f
  obtain ⟨⟨root₂, scopes⟩, hroot₂, htidy⟩ := exists_of_bind_eq_ok htidy
  cases hroot₁.symm.trans hroot₂
  obtain ⟨root₃, henums, hlast⟩ := exists_of_bind_eq_ok htidy
  cases hlast
  have hvalues : SoundValues c block.contents.routines f.structArguments :=
    hf.structArguments ▸ soundValues_none c _
  have hsound := hpasses.sound hnamed hnew hvalues (List.Subset.refl _)
  refine ⟨block, f, hbuild, fun r hr => ?_⟩
  exact hsound.routines r ((Config.declareEnums_within henums).routines hr)

/-- Parameters are named consistently. In every function of a decompiled entry that is not the body
of a struct literal, the parameters are apart from each other and from the local variables, each
argument that the function refers to is shown by its parameter, and there is a parameter for each
default value, exactly if the function uses no argument that there cannot be a parameter for. -/
theorem decompiled_routines_wellNamed {c : Config} (hnamed : c.dialect.namedArguments = true)
    {entry : Entry} {d : Decompiled} (hrun : c.decompile entry = .ok d) :
    ∀ r ∈ d.root.contents.routines, r.fragment.isStruct = false →
      (r.WellNamed ↔ r.ArgumentsFit) := by
  intro r hr hstruct
  obtain ⟨block, f, -, hall⟩ := Config.namedFrom_of_decompile hnamed hrun
  obtain ⟨source, -, -, hnames⟩ := hall r hr
  exact (hnames hstruct).1

/-- The arguments of a function fit if the function refers to no argument with an enormous index
before it is tidied, be it in a check for a default value or in a target that is dropped later. -/
theorem decompiled_arguments_fit {c : Config} (hnamed : c.dialect.namedArguments = true)
    {entry : Entry} {d : Decompiled} (hrun : c.decompile entry = .ok d) :
    ∃ block f, entry.build c.dialect = .ok (block, f) ∧
      ∀ r ∈ d.root.contents.routines, ∃ source ∈ block.contents.routines,
        source.TidiesTo c r ∧ (r.fragment.isStruct = false → source.SmallIndices →
          r.ArgumentsFit ∧ r.WellNamed) := by
  obtain ⟨block, f, hbuild, hall⟩ := Config.namedFrom_of_decompile hnamed hrun
  refine ⟨block, f, hbuild, fun r hr => ?_⟩
  obtain ⟨source, hsource, htidies, hnames⟩ := hall r hr
  refine ⟨source, hsource, htidies, fun hstruct hsmall => ?_⟩
  obtain ⟨hexact, hfit⟩ := hnames hstruct
  exact ⟨hfit hsmall, hexact.mpr (hfit hsmall)⟩

namespace Sample

/-- A script with a function that has this code. -/
def scriptOf (body : List Node) : Entry where
  name := "gml_GlobalScript_greet"
  body := [.routine ⟨"gml_Script_greet", some "greet", false, 0⟩ body]

/-- The code that gives an argument a default value. -/
def defaultOf (argument : String) (value : Int16) : List Node :=
  [.block ⟨0, [.pushVariable .push ⟨argument, .argument⟩ .normal,
      .pushVariable .pushBuiltin ⟨"undefined", .builtin⟩ .normal,
      .compare .equal .variable .variable]⟩,
    .branch [.block ⟨0, [.pushImmediate value,
      .popVariable ⟨argument, .argument⟩ .normal .variable]⟩] none]

/-- A function that refers to its first and its third argument. The first one has a default value,
and the name that the first one would get is the name of a local variable. -/
def greet : Entry :=
  scriptOf (defaultOf "argument0" 5 ++
    [.block ⟨0, [.pushVariable .push ⟨"argument2", .argument⟩ .normal,
        .popVariable ⟨"arg0", .locals⟩ .normal .variable]⟩])

/-- A function with a default value for the argument `2 ^ 31` that returns its first one. -/
def farDefault : Entry :=
  scriptOf (defaultOf "argument2147483648" 5 ++
    [.block ⟨0, [.pushVariable .push ⟨"argument0", .argument⟩ .normal, .plain .ret]⟩])

/-- What is looked at in a routine of a decompiled entry. -/
structure Summary where
  /-- The parameters. -/
  parameters : List String
  /-- Whether the routine is the body of a struct literal. -/
  isStruct : Bool
  /-- The arguments that are referred to. -/
  referred : List Nat
  /-- The arguments with a default value. -/
  defaults : List Nat
  /-- The highest argument that was noted. -/
  highest : Int
  deriving DecidableEq

/-- The summary of a routine. -/
def summary (r : Routine) : Summary where
  parameters := r.parameters
  isStruct := r.fragment.isStruct
  referred := r.contents.accesses.filterMap Access.argumentIndex?
  defaults := r.defaults.map (·.1)
  highest := r.fragment.maxArgument.toInt

/-- The summaries of the routines of an entry, once it is decompiled. -/
def summaries (entry : Entry) : Option (List Summary) :=
  (Config.decompile {} entry).toOption.map fun d => d.root.contents.routines.map summary

end Sample

/-- The name of the local variable is kept free: the first parameter gets an underscore. The
argument with the default value is not referred to any more, and still has its parameter. -/
theorem decompiled_routines_wellNamed_greet :
    ∃ d r, Config.decompile {} Sample.greet = .ok d ∧ r ∈ d.root.contents.routines ∧
      Sample.summary r = ⟨["arg0_", "arg1", "arg2"], false, [2], [0], 2⟩ ∧ r.WellNamed := by
  have hsummaries : Sample.summaries Sample.greet =
      some [⟨["arg0_", "arg1", "arg2"], false, [2], [0], 2⟩] := by
    decide +kernel
  obtain ⟨d, hd, hroutines⟩ := Option.map_eq_some_iff.mp hsummaries
  have hrun : Config.decompile {} Sample.greet = .ok d := by
    cases hresult : Config.decompile {} Sample.greet with
    | error fault =>
      rw [hresult] at hd
      cases hd
    | ok d' =>
      rw [hresult] at hd
      exact congrArg Except.ok (Option.some.inj hd)
  obtain ⟨r, hr, hsummary⟩ := List.map_eq_singleton_iff.mp hroutines
  have hmem : r ∈ d.root.contents.routines := by simp [hr]
  have hstruct : r.fragment.isStruct = false := congrArg Sample.Summary.isStruct hsummary
  have hreferred : r.contents.accesses.filterMap Access.argumentIndex? = [2] :=
    congrArg Sample.Summary.referred hsummary
  have hdefaults : r.defaults.map (·.1) = [0] := congrArg Sample.Summary.defaults hsummary
  have hmax : r.fragment.maxArgument.toInt = 2 := congrArg Sample.Summary.highest hsummary
  have hfit : r.ArgumentsFit := by
    intro index huses
    have hindex : index = 2 ∨ index = 0 := by
      rcases huses with ⟨a, ha, hindex⟩ | ⟨value, hvalue⟩
      · have hmem : index ∈ r.contents.accesses.filterMap Access.argumentIndex? :=
          List.mem_filterMap.mpr ⟨a, ha, hindex⟩
        rw [hreferred] at hmem
        exact .inl (List.mem_singleton.mp hmem)
      · have hmem : index ∈ r.defaults.map (·.1) := List.mem_map_of_mem hvalue
        rw [hdefaults] at hmem
        exact .inr (List.mem_singleton.mp hmem)
    rw [hmax]
    unfold Fragment.indexLimit
    omega
  exact ⟨d, r, hrun, hmem, hsummary,
    (decompiled_routines_wellNamed rfl hrun r hmem hstruct).mpr hfit⟩

/-- The default value of the argument `2 ^ 31` is kept, though there is no parameter for it: noted
as a signed number of 32 bits, the index is below all others. -/
example : Sample.summaries Sample.farDefault =
    some [⟨["arg0"], false, [0], [2147483648], 0⟩] := by
  decide +kernel

end GmlDecompiler

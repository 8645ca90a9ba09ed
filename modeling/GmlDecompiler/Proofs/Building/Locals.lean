import GmlDecompiler.Proofs.Building.Functions
import GmlDecompiler.Proofs.Codegen.Replay

/-!
# Local variables

A fragment declares the local variables that its own instructions refer to, in the order in which
building meets them first. Building meets the code of a fragment in the order of its nodes, except
that a cleanup comes before the code it is for; the code of a nested routine is met in another
fragment. The declaration is the first statement of the fragment, and no other statement of it
declares local variables.
-/

namespace GmlDecompiler

/-- The names of local variables that the code of a region refers to, in the order in which building
meets it, and without the code of nested routines. -/
def localNamesIn (nodes : List Node) : List String :=
  ((nodesWithin false nodes).flatMap Node.code).flatMap Instruction.localNames

/-- The local variables of a fragment: those that its own code refers to, in the order in which they
are met first, without the one that the compiler uses for itself. -/
def localsOf (body : List Node) : List String :=
  (localNamesIn body).eraseDups.filter (· ≠ Reserved.temporary)

/-- Between two fragments some local variables are noted, in this order and no others. -/
structure Fragment.Notes (names : List String) (f f' : Fragment) : Prop where
  locals : f'.locals = (f.noteLocals names).locals
  purge : f'.purge = (f.noteLocals names).purge

/-- The action notes some local variables, in this order and no others, if it succeeds. -/
def Action.Notes (names : List String) {α : Type} (x : Action α) : Prop :=
  ∀ f a f', x f = .ok (a, f') → f.Notes names f'

/-- A region refers to what its first node does, by its own code and in the regions inside it, and
then to what the other nodes do. -/
theorem localNamesIn_cons (n : Node) (nodes : List Node) :
    localNamesIn (n :: nodes) =
      (n.code.flatMap Instruction.localNames ++ (n.regions false).flatMap localNamesIn) ++
        localNamesIn nodes := by
  unfold localNamesIn
  rw [nodesWithin, Node.within_eq]
  simp only [List.cons_append, List.flatMap_cons, List.flatMap_append, List.flatMap_assoc,
    List.append_assoc]

namespace Fragment.Notes

variable {names : List String} {f f' : Fragment}

/-- Where nothing happens, no local variable is noted. -/
theorem refl (f : Fragment) : f.Notes [] f :=
  ⟨rfl, rfl⟩

/-- What is noted in two steps is noted in their order. -/
theorem trans {first second : List String} {g : Fragment} (hfirst : f.Notes first g)
    (hsecond : g.Notes second f') : f.Notes (first ++ second) f' := by
  have hlocals := hsecond.locals
  have hpurge := hsecond.purge
  rw [noteLocals_eq] at hlocals hpurge
  dsimp only at hlocals hpurge
  refine ⟨?_, ?_⟩
  · rw [hlocals, hfirst.locals, noteLocals_append, noteLocals_eq (f.noteLocals first)]
  · rw [hpurge, hfirst.purge, noteLocals_append, noteLocals_eq (f.noteLocals first)]

/-- A fragment that has the same local variables may take the place of the first one. -/
theorem after {g : Fragment} (hnothing : g.Notes [] f) (hnotes : f.Notes names f') :
    g.Notes names f' :=
  hnothing.trans hnotes

/-- A fragment that has the same local variables may take the place of the second one. -/
theorem before {g : Fragment} (hnotes : f.Notes names f') (hnothing : f'.Notes [] g) :
    f.Notes names g := by
  have hboth := hnotes.trans hnothing
  rwa [List.append_nil] at hboth

end Fragment.Notes

namespace Fragment

variable {f f' : Fragment}

/-- Popping an expression notes nothing. -/
theorem notes_tryPop {e : Expr} (hpop : f.tryPop = some (e, f')) : f.Notes [] f' := by
  unfold tryPop at hpop
  split at hpop
  · cases hpop
  · cases hpop
    exact ⟨rfl, rfl⟩

/-- Fetching a pending routine notes nothing. -/
theorem notes_takePending {name : String} {routine : Routine}
    (htake : f.takePending name = some (routine, f')) : f.Notes [] f' := by
  obtain ⟨_, -, hf'⟩ := Option.map_eq_some_iff.mp htake
  cases hf'
  exact ⟨rfl, rfl⟩

end Fragment

namespace Action

variable {α β : Type}

/-- An action that notes nothing may follow. -/
theorem Notes.before {names : List String} {x : Action α} {k : α → Action β} (hx : x.Notes names)
    (hk : ∀ a, (k a).Notes []) : (x >>= k).Notes names := by
  intro f b f' hrun
  obtain ⟨⟨a, g⟩, hfirst, hsecond⟩ := exists_of_bind_eq_ok hrun
  exact (hx f a g hfirst).before (hk a g b f' hsecond)

/-- A change to the fragment that notes nothing. -/
theorem Notes.modify {change : Fragment → Fragment}
    (hchange : ∀ f : Fragment, f.Notes [] (change f)) :
    Notes [] (modify change : Action Unit) := by
  intro f a f' hrun
  cases hrun
  exact hchange f

/-- The basic actions note nothing. -/
theorem congruence_notes : Congruence fun _ x _ => x.Notes [] where
  pure a f b f' hrun := by
    cases hrun
    exact .refl f
  bind hx hk := hx.before hk
  malformed _ _ _ := nofun
  pop address _ f e f' hrun := by
    unfold Action.pop at hrun
    split at hrun
    · rename_i hpop
      cases hrun
      exact Fragment.notes_tryPop hpop
    · cases hrun
  popMany address _ count f es f' hrun := by
    unfold Action.popMany at hrun
    split at hrun
    · cases hrun
      exact ⟨rfl, rfl⟩
    · cases hrun
  push e := Notes.modify fun _ => ⟨rfl, rfl⟩
  parentCall e := Notes.modify fun _ => ⟨rfl, rfl⟩
  duplicate i _ f a f' hrun := by
    dsimp only [Instruction.performDuplicate] at hrun
    split at hrun
    all_goals
      obtain ⟨stack, -, hrun⟩ := exists_of_bind_eq_ok hrun
      cases hrun
      exact ⟨rfl, rfl⟩

/-- Popping a condition notes nothing. -/
theorem popCondition_notes (construct : Construct) : (popCondition construct).Notes [] := by
  intro f e f' hrun
  unfold popCondition at hrun
  split at hrun
  · rename_i hpop
    cases hrun
    exact Fragment.notes_tryPop hpop
  · cases hrun

end Action

namespace Instruction

variable {d : Dialect} {i : Instruction}

/-- Fetching a function notes nothing. -/
theorem takeFunction_notes (name : String) : (takeFunction name).Notes [] := by
  intro f shape f' hrun
  unfold takeFunction at hrun
  split at hrun
  · rename_i htake
    cases hrun
    exact Fragment.notes_takePending htake
  · cases hrun
    exact .refl _

/-- Dropping an expression notes nothing. -/
theorem discard_notes : discard.Notes [] := by
  intro f ss f' hrun
  unfold discard at hrun
  split at hrun
  · cases hrun
    exact .refl _
  · rename_i hpop
    cases hrun
    exact Fragment.notes_tryPop hpop

/-- The variable that is accessed is noted if it is a local one. -/
theorem accessed_notes : i.accessed.Notes ((i.target.map VarRef.localName).getD []) := by
  intro f v f' hrun
  cases htarget : i.target with
  | none =>
    rw [accessed, htarget] at hrun
    cases hrun
  | some v =>
    rw [accessed_eq htarget] at hrun
    cases hrun
    exact ⟨rfl, rfl⟩

/-- Reading a variable notes its name if it is a local one. -/
theorem readAccess_notes :
    (i.readAccess d).Notes ((i.target.map VarRef.localName).getD []) := by
  have hC := Action.congruence_notes
  have howner : i.popOwner.Notes [] := i.popOwner_congr hC 0
  refine accessed_notes.before fun v => ?_
  split
  · exact howner.before fun _ => hC.pure _
  · split
    · exact i.popElement_congr hC 0 _
    · split
      · exact i.popElement_congr hC 0 _
      · exact hC.pure _

/-- Storing to a variable notes its name if it is a local one. -/
theorem store_notes : (i.store d).Notes ((i.target.map VarRef.localName).getD []) := by
  have hC := Action.congruence_notes
  have hpop : (Action.pop i.address).Notes [] := hC.pop _ 0
  have hassignment : (i.popAssignment d).Notes ((i.target.map VarRef.localName).getD []) := by
    refine accessed_notes.before fun v => ?_
    have haccess : (i.writeAccess d v).Notes [] := i.writeAccess_congr hC d 0 v
    split
    · exact hpop.before fun _ => haccess.before fun _ => hC.pure _
    · exact haccess.before fun _ => hpop.before fun _ => hC.pure _
  refine hassignment.before fun (access, value) => ?_
  dsimp only
  split
  · exact hC.pure _
  · exact hC.pure _

/-- An instruction notes the local variable that it pushes or stores to. -/
theorem perform_notes (d : Dialect) (i : Instruction) : (i.perform d).Notes i.localNames := by
  have hC := Action.congruence_notes
  by_cases hnames : i.localNames = []
  · have hnote : ∀ name ∈ i.localNames, Action.Notes [] (modify (·.noteLocal name) : Action Unit) :=
      fun name hname => absurd hname (hnames ▸ List.not_mem_nil)
    rw [hnames]
    exact i.perform_congr hC d 0 hnote (fun name _ => takeFunction_notes name)
      fun _ => discard_notes
  · unfold localNames at hnames ⊢
    split
    · rename_i haccess
      rw [if_pos haccess] at hnames
      rcases haccess with ⟨hpush, htype⟩ | hpop
      · have hpushed : (i.pushed d).Notes ((i.target.map VarRef.localName).getD []) := by
          rw [pushed, htype]
          exact readAccess_notes.before fun _ => hC.pure _
        rw [perform_eq_of_isPush hpush]
        exact hpushed.before fun shape => Action.Notes.before (hC.push _) fun _ => hC.pure _
      · have htarget : i.target.isNone = false := by
          cases htarget : i.target with
          | none => exact absurd (by rw [htarget]; rfl) hnames
          | some v => rfl
        rw [perform, hpop]
        dsimp only
        rw [htarget]
        exact store_notes
    · rename_i haccess
      exact absurd (if_neg haccess) hnames

end Instruction

section Built

variable {dialect : Dialect}

/-- Straight code notes the local variables of its instructions. -/
theorem notes_foldlM_step (code : List Instruction) {m m' : Machine}
    (hrun : code.foldlM (Machine.step dialect) m = .ok m') :
    m.fragment.Notes (code.flatMap Instruction.localNames) m'.fragment := by
  induction code generalizing m with
  | nil =>
    cases hrun
    exact .refl _
  | cons i code ih =>
    rw [List.foldlM_cons] at hrun
    obtain ⟨middle, hstep, hrest⟩ := exists_of_bind_eq_ok hrun
    obtain ⟨⟨ss, f⟩, hperform, hstep⟩ := exists_of_bind_eq_ok hstep
    cases hstep
    exact (i.perform_notes dialect _ ss f hperform).trans (ih hrest)

/-- Closing a region notes nothing. -/
theorem notes_close (d : Draft) : d.fragment.Notes [] d.close.2 := by
  suffices hall : ∀ (declared : List (Nat × String)) (ss : List Stmt) (f : Fragment),
      f.Notes [] (declared.foldl Draft.settle (ss, f)).2 from hall d.declared d.output d.fragment
  intro declared
  induction declared with
  | nil => exact fun _ f => .refl f
  | cons first declared ih =>
    intro ss f
    rw [List.foldl_cons, Draft.settle]
    dsimp only
    split
    · rename_i htake
      exact (Fragment.notes_takePending htake).after (ih _ _)
    · exact ih ss f

/-- Declaring a routine notes nothing, since the routine has its own local variables. -/
theorem notes_declare (d : Draft) (header : RoutineHeader) (routine : Routine) :
    d.fragment.Notes [] (d.declare header routine).fragment := by
  unfold Draft.declare
  cases header.name <;> exact ⟨rfl, rfl⟩

/-- Building a region notes the local variables that its code refers to. -/
def RegionNotes (dialect : Dialect) (nodes : List Node) : Prop :=
  (buildRegion (Machine.step dialect) nodes).Notes (localNamesIn nodes)

/-- The conditions of a chain note the local variables of their regions, in the order of the
regions. -/
theorem ConditionsGive.notes {regions : List (List Node)} {f f' : Fragment} {es : List Expr}
    {ss : List Stmt} (hgive : ConditionsGive (Machine.step dialect) regions f es ss f')
    (hregions : ∀ nodes ∈ regions, RegionNotes dialect nodes) :
    f.Notes (regions.flatMap localNamesIn) f' := by
  induction hgive with
  | nil => exact .refl _
  | cons hregion hpop _ ih =>
    obtain ⟨hfirst, hregions⟩ := List.forall_mem_cons.mp hregions
    rw [List.flatMap_cons]
    have hcondition := Action.popCondition_notes _ _ _ _ hpop
    exact ((hfirst _ _ _ hregion).before hcondition).trans (ih hregions)

/-- A node that is neither straight code nor a routine notes the local variables that its regions
refer to. -/
theorem Node.Gives.notes {n : Node} {f f' : Fragment} {ss : List Stmt}
    (hgives : n.Gives (Machine.step dialect) f ss f')
    (hregions : ∀ nodes ∈ n.regions true, RegionNotes dialect nodes) :
    f.Notes ((n.regions false).flatMap localNamesIn) f' := by
  -- a list of one region refers to what the region refers to and then to nothing
  have hend {names : List String} {g g' : Fragment} (hnotes : g.Notes names g') :
      g.Notes (names ++ []) g' := hnotes.trans (.refl _)
  cases hgives with
  | branch hpop hthen =>
    have hcondition := Action.popCondition_notes _ _ _ _ hpop
    exact hcondition.after (hend (hregions _ List.mem_cons_self _ _ _ hthen))
  | branchElse hpop hthen helse =>
    obtain ⟨hfirst, hsecond⟩ := List.forall_mem_cons.mp hregions
    have hcondition := Action.popCondition_notes _ _ _ _ hpop
    have hlast := hend (hsecond _ List.mem_cons_self _ _ _ helse)
    exact hcondition.after ((hfirst _ _ _ hthen).trans hlast)
  | chain hgive => exact (hgive.notes hregions).before ⟨rfl, rfl⟩
  | @loop conditionPart body f f₁ f₂ f₃ _ _ _ hcondition hpop hbody =>
    obtain ⟨hfirst, hsecond⟩ := List.forall_mem_cons.mp hregions
    have hbefore := (hfirst _ _ _ hcondition).before (Action.popCondition_notes _ _ _ _ hpop)
    have henter : f₂.Notes [] { f₂ with inLoop := true } := ⟨rfl, rfl⟩
    have hleave : f₃.Notes [] { f₃ with inLoop := f₂.inLoop } := ⟨rfl, rfl⟩
    have hlast := hend ((hsecond _ List.mem_cons_self _ _ _ hbody).before hleave)
    exact hbefore.trans (henter.after hlast)
  | leave | again => exact .refl _
  | guarded hbody | statics hbody => exact hend (hregions _ List.mem_cons_self _ _ _ hbody)
  | @guardedCleanup body cleanupPart f f₁ f₂ cleanup _ hcleanup hbody =>
    obtain ⟨hfirst, hsecond⟩ := List.forall_mem_cons.mp hregions
    have henter : f₁.Notes [] (f₁.pushCleanup cleanup) := ⟨rfl, rfl⟩
    have hleave : f₂.Notes [] f₂.popCleanup := ⟨rfl, rfl⟩
    have hlast := hend ((hsecond _ List.mem_cons_self _ _ _ hbody).before hleave)
    exact (hfirst _ _ _ hcleanup).trans (henter.after hlast)

/-- Building a node notes the local variables that it refers to. -/
theorem Node.Moves.notes {n : Node} {d d' : Draft} (hmoves : n.Moves (Machine.step dialect) d d')
    (hregions : ∀ nodes ∈ n.regions true, RegionNotes dialect nodes) :
    d.fragment.Notes
      (n.code.flatMap Instruction.localNames ++ (n.regions false).flatMap localNamesIn)
      d'.fragment := by
  cases hmoves with
  | block hfold => exact (notes_foldlM_step _ hfold).trans (.refl _)
  | routine hbuilt => exact notes_declare d _ _
  | gives hgives =>
    have hcode : n.code = [] := by cases hgives <;> rfl
    rw [hcode]
    exact hgives.notes hregions

/-- Building nodes notes the local variables of their code, if the regions inside the nodes do. -/
theorem notes_buildNodes {nodes : List Node} {d d' : Draft}
    (hrun : buildNodes (Machine.step dialect) nodes d = .ok ((), d'))
    (hregions : ∀ n ∈ nodes, ∀ inner ∈ n.regions true, RegionNotes dialect inner) :
    d.fragment.Notes (localNamesIn nodes) d'.fragment := by
  induction nodes generalizing d with
  | nil =>
    cases hrun
    exact .refl _
  | cons n nodes ih =>
    obtain ⟨middle, hmoves, hrest⟩ := buildNodes_cons_eq_ok hrun
    obtain ⟨hfirst, hothers⟩ := List.forall_mem_cons.mp hregions
    rw [localNamesIn_cons]
    exact (hmoves.notes hfirst).trans (ih hrest hothers)

/-- Building any region notes the local variables that its code refers to. -/
theorem regionNotes (nodes : List Node) : RegionNotes dialect nodes := by
  induction nodes using regions_induction with
  | step nodes ih =>
    intro f ss f' hregion
    obtain ⟨d, hrun, hclose⟩ := buildRegion_eq_ok hregion
    have hclosed := notes_close d
    rw [hclose] at hclosed
    exact (notes_buildNodes hrun ih).before hclosed

/-- A routine that was built has the local variables of its body. -/
theorem locals_buildRoutine {header : RoutineHeader} {body : List Node} {r : Routine}
    (hrun : buildRoutine (Machine.step dialect) header body = .ok r) :
    r.fragment.locals = localsOf body := by
  obtain ⟨ss, f, hregion, -, hfragment⟩ := buildRoutine_eq_ok hrun
  have hnotes := regionNotes body _ ss f hregion
  have hpurged : f.purgeLocals.locals =
      ((Fragment.start header.codeName header.name header.argCount).noteLocals
        (localNamesIn body)).purgeLocals.locals := by
    unfold Fragment.purgeLocals
    rw [hnotes.locals, hnotes.purge]
  rw [hfragment, Fragment.finish_eq, hpurged, Fragment.purgeLocals_noteLocals rfl rfl]
  rfl

/-- A function has the local variables of some code, and its statements declare them first, if there
are any. No statement after that declares local variables; the functions nested in it do not
count. -/
structure DeclaresLocals (body : List Node) (fragment : Fragment) (statements : List Stmt) :
    Prop where
  locals : fragment.locals = localsOf body
  first : ∃ rest, statements = localsDeclaration (localsOf body) ++ rest ∧
    ∀ s ∈ rest, s.Throughout (fun _ t => t.isLocals = false) false

/-- A routine that is built declares its local variables. Its statements were built in a fragment
that had noted none. -/
theorem declaresLocals_buildRoutine {header : RoutineHeader} {body : List Node} {r : Routine}
    (hrun : buildRoutine (Machine.step dialect) header body = .ok r) :
    DeclaresLocals body r.fragment r.body.statements := by
  have hlocals := locals_buildRoutine hrun
  obtain ⟨rest, hstatements, hrest⟩ := buildRoutine_throughout hrun
  rw [hlocals] at hstatements
  refine ⟨hlocals, rest, hstatements, fun s hs => ?_⟩
  exact (hrest s hs).mono fun _ _ hfits => hfits.isLocals

/-- A function is what building some code gives, apart from the values of its struct arguments. -/
def Routine.BuiltFrom (dialect : Dialect) (p : RoutineHeader × List Node) (r : Routine) : Prop :=
  ∃ built values, buildRoutine (Machine.step dialect) p.1 p.2 = .ok built ∧
    r = built.withValues values

end Built

/-- The tree of an entry declares the local variables of the entry, and so does every function that
was declared in it, at any depth, for its own. Nothing else in the tree declares local variables,
since every function in it is one that was declared. -/
theorem locals_declared_by_first_reference (dialect : Dialect) (entry : Entry) (block : Block)
    (f : Fragment) (hbuild : entry.build dialect = .ok (block, f)) :
    DeclaresLocals entry.body f block.statements ∧
    (∀ p ∈ routinesAmong (nodesWithin true entry.body), ∃ r,
      buildRoutine (Machine.step dialect) p.1 p.2 = .ok r ∧
        DeclaresLocals p.2 r.fragment r.body.statements) ∧
    ∀ s ∈ block.statements, s.AllFunctions fun r =>
      ∃ p ∈ routinesAmong (nodesWithin true entry.body), r.BuiltFrom dialect p ∧
        DeclaresLocals p.2 r.fragment r.body.statements := by
  refine ⟨?_, ?_, ?_⟩
  · obtain ⟨root, hroot, hstatements, rfl⟩ := entry.build_eq_ok hbuild
    rw [← hstatements]
    exact declaresLocals_buildRoutine hroot
  · intro p hp
    obtain ⟨r, hrun⟩ := entry.exists_buildRoutine hbuild p (List.mem_cons_of_mem _ hp)
    exact ⟨r, hrun, declaresLocals_buildRoutine hrun⟩
  · refine entry.build_allFunctions ?_ ?_ hbuild
    · rintro r values ⟨p, hp, ⟨built, _, hrun, rfl⟩, hlocals, hfirst⟩
      exact ⟨p, hp, ⟨built, values, hrun, rfl⟩, hlocals, hfirst⟩
    · intro p hp r hrun
      refine ⟨p, hp, ⟨r, r.fragment.structArguments, hrun, ?_⟩, declaresLocals_buildRoutine hrun⟩
      exact r.withValues_self.symm

namespace Sample

/-- The value `1` stored in a local variable. -/
def setLocal (name : String) : Node :=
  .block ⟨0, [.pushImmediate 1, .popVariable ⟨name, .locals⟩ .normal .variable]⟩

/-- Code whose cleanup comes last but is built first, and that has a routine with a local variable
of its own. -/
def cleaning : Entry where
  name := "gml_Script_clean"
  body := [setLocal Reserved.temporary,
    .guarded [setLocal "count", .routine ⟨"gml_Script_tally", some "tally", false, 0⟩
      [setLocal "total"], setLocal "file"] (some [setLocal "file"])]

end Sample

/-- The variable of the cleanup is declared first, and that of the nested routine is not declared
here. -/
theorem locals_declared_by_first_reference_cleaning :
    ∃ block f, Sample.cleaning.build Version.current.dialect = .ok (block, f) ∧
      f.locals = ["file", "count"] ∧ block.statements.head? = some (.locals ["file", "count"]) := by
  have hbuilds : (Sample.cleaning.build Version.current.dialect).toOption.isSome = true := by
    decide +kernel
  have hnames : localsOf Sample.cleaning.body = ["file", "count"] := by decide +kernel
  cases hbuild : Sample.cleaning.build Version.current.dialect with
  | error fault =>
    rw [hbuild] at hbuilds
    cases hbuilds
  | ok result =>
    obtain ⟨⟨hlocals, rest, hstatements, -⟩, -⟩ :=
      locals_declared_by_first_reference _ _ _ _ hbuild
    rw [hnames] at hlocals hstatements
    exact ⟨result.1, result.2, rfl, hlocals, by rw [hstatements]; rfl⟩

end GmlDecompiler

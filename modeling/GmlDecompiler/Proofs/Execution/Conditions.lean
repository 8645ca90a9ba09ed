import GmlDecompiler.Proofs.Execution.Staging
import GmlDecompiler.Program
import Mathlib.Data.List.InsertIdx

/-!
# Where the statements of conditions run

The statements that the condition of a loop gives stand in front of the loop, and those that the
later conditions of a chain give stand in front of the statement that uses the chain. There they run
once, where the structured code runs them before every test of the loop, or not at all if the chain
is decided earlier. If no condition gives such statements, the tree does exactly what the structured
code does, whatever its conditions are decided to be.
-/

namespace GmlDecompiler

namespace Placed

variable {items : List Placed}

/-- The statements of a group are those that it was made from. -/
@[simp] theorem map_statement_group (conduct : Conduct) (ss : List Stmt) :
    (group conduct ss).map statement = ss := by
  cases ss with
  | nil => rfl
  | cons s ss => simp [group, Function.comp_def]

/-- Statements that stand for themselves are the statements. -/
@[simp] theorem map_statement_own (ss : List Stmt) : (ss.map own).map statement = ss := by
  simp [own, Function.comp_def]

/-- A statement that stands for itself does what it says. -/
theorem faithful_own (s : Stmt) : (own s).Faithful :=
  rfl

/-- Declaring a static variable does what assigning it does. -/
theorem Faithful.toStatic {p : Placed} (hp : p.Faithful) : p.toStatic.Faithful := by
  obtain ⟨statement, conduct⟩ := p
  obtain rfl : conduct = statement.conduct := hp
  cases statement <;> simp [Faithful, Placed.toStatic, Stmt.toStatic, Stmt.conduct]

/-- Statements that do what the structured code does in their places do it in a row, too. -/
theorem inOrder_eq (hitems : ∀ p ∈ items, p.Faithful) :
    inOrder items = stmtsConduct (items.map statement) := by
  induction items with
  | nil => rfl
  | cons p items ih =>
    obtain ⟨hp, hrest⟩ := List.forall_mem_cons.mp hitems
    have hcons : inOrder (p :: items) = p.conduct.andThen (inOrder items) := rfl
    rw [hcons, ih hrest, hp, List.map_cons, stmtsConduct]

end Placed

/-- Statements of a region that do what the structured code does in their places make the whole
region do what its code does. -/
theorem Staged.conduct_eq {r : Staged} (hitems : ∀ p ∈ r.items, p.Faithful) :
    r.conduct = stmtsConduct r.statements :=
  Placed.inOrder_eq hitems

/-- The staged region has the statements that building gives, and ends in the same fragment. If
nothing is displaced, every statement does what the structured code does in its place. -/
structure Staged.Renders (r : Staged) (ss : List Stmt) (f : Fragment) : Prop where
  statements_eq : r.statements = ss
  fragment_eq : r.fragment = f
  faithful : r.displaced = [] → ∀ p ∈ r.items, p.Faithful

namespace Stage

variable {d : Dialect} {s s' : Stage}

/-- Every statement so far does what the structured code does in its place. -/
def Faithful (s : Stage) : Prop :=
  ∀ p ∈ s.output, p.Faithful

/-- Adding placed statements to a stage appends their statements to the region. -/
theorem draft_add (s : Stage) (f : Fragment) (items : List Placed) (displaced : List Stmt) :
    (s.add f items displaced).draft =
      { s.draft with
        fragment := f
        output := s.draft.output ++ items.map Placed.statement } := by
  simp [add, draft]

/-- Replaying an instruction in a staged region does what replaying it does. -/
theorem step_of_step {i : Instruction} {m : Machine}
    (hstep : Machine.step d ⟨s.fragment, s.draft.output⟩ i = .ok m) :
    ∃ s', s.step d i = .ok s' ∧
      s'.draft = { s.draft with fragment := m.fragment, output := m.output } ∧
      s'.displaced = s.displaced ∧ (s.Faithful → s'.Faithful) := by
  obtain ⟨⟨ss, f⟩, hperform, hstep⟩ := exists_of_bind_eq_ok hstep
  cases hstep
  let kept := if i.isReturn then (f.dropCleanupCopy s.draft.output).length else s.output.length
  have hstaged : s.step d i =
      .ok { s with fragment := f, output := s.output.take kept ++ ss.map .own } := by
    simp only at hperform
    simp only [step, hperform, bind, Except.bind, pure_eq_ok, kept]
  refine ⟨_, hstaged, ?_, rfl, ?_⟩
  · simp only [draft, List.map_append, List.map_take, Placed.map_statement_own, kept]
    split
    · have hprefix := f.dropCleanupCopy_isPrefix (s.output.map Placed.statement)
      rw [← List.prefix_iff_eq_take.mp hprefix]
    · rw [← List.map_take, List.take_length]
  · intro hfaithful p hp
    rcases List.mem_append.mp hp with hold | hnew
    · exact hfaithful p (List.mem_of_mem_take hold)
    · obtain ⟨statement, -, rfl⟩ := List.mem_map.mp hnew
      exact Placed.faithful_own statement

/-- Replaying straight code in a staged region does what replaying it does. -/
theorem foldlM_step_of_foldlM_step {code : List Instruction} {m : Machine}
    (hrun : code.foldlM (Machine.step d) ⟨s.fragment, s.draft.output⟩ = .ok m) :
    ∃ s', code.foldlM (Stage.step d) s = .ok s' ∧
      s'.draft = { s.draft with fragment := m.fragment, output := m.output } ∧
      s'.displaced = s.displaced ∧ (s.Faithful → s'.Faithful) := by
  induction code generalizing s with
  | nil =>
    cases hrun
    exact ⟨s, rfl, rfl, rfl, id⟩
  | cons i code ih =>
    obtain ⟨middle, hstep, hrest⟩ := exists_of_bind_eq_ok hrun
    obtain ⟨s₁, hfirst, hdraft, hdisplaced, hfaithful⟩ := step_of_step hstep
    have hmiddle : middle = ⟨s₁.fragment, s₁.draft.output⟩ := by
      rw [hdraft, ← show s₁.draft.fragment = s₁.fragment from rfl, hdraft]
    rw [hmiddle] at hrest
    obtain ⟨s₂, hsecond, hdraft₂, hdisplaced₂, hfaithful₂⟩ := ih hrest
    refine ⟨s₂, ?_, ?_, hdisplaced₂.trans hdisplaced, fun h => hfaithful₂ (hfaithful h)⟩
    · simp only [List.foldlM_cons, hfirst, bind, Except.bind]
      exact hsecond
    · rw [hdraft₂, hdraft]

/-- Declaring a routine that is still pending does the same to staged statements. -/
theorem settle_renders (items : List Placed) (f : Fragment) (first : Nat × String) :
    ((settle (items, f) first).1.map Placed.statement, (settle (items, f) first).2) =
        Draft.settle (items.map Placed.statement, f) first ∧
      ((∀ p ∈ items, p.Faithful) → ∀ p ∈ (settle (items, f) first).1, p.Faithful) := by
  unfold settle Draft.settle
  dsimp only
  cases f.takePending first.2 with
  | none => exact ⟨rfl, id⟩
  | some taken =>
    refine ⟨by simp [List.map_insertIdx, Placed.own], fun hitems p hp => ?_⟩
    rcases List.eq_or_mem_of_mem_insertIdx hp with rfl | hp
    · exact Placed.faithful_own _
    · exact hitems p hp

/-- Declaring all that is still pending does the same to staged statements. -/
theorem foldl_settle_renders (declared : List (Nat × String)) (items : List Placed) (f : Fragment) :
    ((declared.foldl settle (items, f)).1.map Placed.statement,
        (declared.foldl settle (items, f)).2) =
        declared.foldl Draft.settle (items.map Placed.statement, f) ∧
      ((∀ p ∈ items, p.Faithful) → ∀ p ∈ (declared.foldl settle (items, f)).1, p.Faithful) := by
  induction declared generalizing items f with
  | nil => exact ⟨rfl, id⟩
  | cons first declared ih =>
    obtain ⟨hsettled, hfaithful⟩ := settle_renders items f first
    obtain ⟨hall, hkept⟩ := ih (settle (items, f) first).1 (settle (items, f) first).2
    rw [hsettled] at hall
    exact ⟨hall, fun hitems => hkept (hfaithful hitems)⟩

/-- Closing a staged region gives the statements and the fragment that closing its draft gives. -/
theorem close_renders (s : Stage) (hfaithful : s.displaced = [] → s.Faithful) :
    s.close.Renders s.draft.close.1 s.draft.close.2 := by
  obtain ⟨hsettled, hkept⟩ := foldl_settle_renders s.declared s.output s.fragment
  obtain ⟨hstatements, hfragment⟩ := Prod.mk.inj hsettled
  exact ⟨hstatements, hfragment, fun hdisplaced => hkept (hfaithful hdisplaced)⟩

end Stage

section Regions

variable {d : Dialect}

/-- Whenever building a region succeeds, staging it renders the same statements. -/
def RegionStages (d : Dialect) (nodes : List Node) : Prop :=
  ∀ f ss f', buildRegion (Machine.step d) nodes f = .ok (ss, f') →
    ∃ s, stageNodes d nodes { fragment := f } = .ok s ∧ s.close.Renders ss f'

/-- The later conditions of a chain are staged as they are built. If they displace nothing, they
give no statements. -/
theorem ConditionsGive.exists_stageLater {regions : List (List Node)} {f f' : Fragment}
    {es : List Expr} {ss : List Stmt} (logic : Logic)
    (hgive : ConditionsGive (Machine.step d) regions f es ss f')
    (hregions : ∀ nodes ∈ regions, RegionStages d nodes) :
    ∃ conduct displaced,
      stageLater d logic regions f = .ok ⟨es, ss, conduct, f', displaced⟩ ∧
        (displaced = [] → ss = []) := by
  induction hgive with
  | nil => exact ⟨.skip, [], rfl, fun _ => rfl⟩
  | @cons _ _ _ _ _ _ ss _ condition _ hregion hpop _ ih =>
    obtain ⟨hfirst, hregions⟩ := List.forall_mem_cons.mp hregions
    obtain ⟨s, hstage, rfl, rfl, -⟩ := hfirst _ _ _ hregion
    obtain ⟨conduct, displaced, hrest, hquiet⟩ := ih hregions
    refine ⟨s.close.conduct.andThen (.unlessDecided logic condition conduct),
      s.close.statements ++ s.close.displaced ++ displaced, ?_, fun hnone => ?_⟩
    · simp only [stageLater, hstage, hpop, hrest, bind, Except.bind, pure_eq_ok]
    · obtain ⟨hfirst, hlater⟩ := List.append_eq_nil_iff.mp hnone
      rw [(List.append_eq_nil_iff.mp hfirst).1, hquiet hlater, List.append_nil]

/-- A node that is neither straight code nor a routine is staged as it is built. If it displaces
nothing, its statements do what the structured code does. -/
theorem Node.Gives.exists_stage {n : Node} {s : Stage} {f' : Fragment} {ss : List Stmt}
    (hgives : n.Gives (Machine.step d) s.fragment ss f')
    (hregions : ∀ nodes ∈ n.regions false, RegionStages d nodes) :
    ∃ items displaced, n.stage d s = .ok (s.add f' items displaced) ∧
      items.map Placed.statement = ss ∧ (displaced = [] → ∀ p ∈ items, p.Faithful) := by
  obtain ⟨f, hf⟩ : ∃ f, s.fragment = f := ⟨_, rfl⟩
  rw [hf] at hgives
  cases hgives with
  | @branch _ _ _ _ condition _ hpop hthen =>
    obtain ⟨inner, hstage, rfl, rfl, hquiet⟩ := hregions _ List.mem_cons_self _ _ _ hthen
    refine ⟨[⟨.branch condition ⟨inner.close.statements, true⟩ none,
      .branch condition inner.close.conduct .skip⟩], inner.close.displaced, ?_, rfl,
      fun hnone => List.forall_mem_singleton.mpr ?_⟩
    · simp only [Node.stage, hf, hpop, hstage, bind, Except.bind, pure_eq_ok]
    · rw [Staged.conduct_eq (hquiet hnone)]
      rfl
  | @branchElse _ _ _ _ _ _ condition _ _ hpop hthen helse =>
    obtain ⟨hfirst, hsecond⟩ := List.forall_mem_cons.mp hregions
    obtain ⟨inner, hstage, rfl, rfl, hquiet⟩ := hfirst _ _ _ hthen
    obtain ⟨other, hother, rfl, rfl, hquiet'⟩ := hsecond _ List.mem_cons_self _ _ _ helse
    refine ⟨[⟨.branch condition ⟨inner.close.statements, true⟩ (some ⟨other.close.statements, true⟩),
      .branch condition inner.close.conduct other.close.conduct⟩],
      inner.close.displaced ++ other.close.displaced, ?_, rfl,
      fun hnone => List.forall_mem_singleton.mpr ?_⟩
    · simp only [Node.stage, hf, hpop, hstage, hother, bind, Except.bind, pure_eq_ok]
    · obtain ⟨hnone, hnone'⟩ := List.append_eq_nil_iff.mp hnone
      rw [Staged.conduct_eq (hquiet hnone), Staged.conduct_eq (hquiet' hnone')]
      rfl
  | @chain logic _ _ _ _ _ hgive =>
    cases hgive with
    | nil =>
      refine ⟨[], [], ?_, rfl, fun _ => List.forall_mem_nil _⟩
      simp only [Node.stage, hf, pure_eq_ok]
    | @cons _ _ _ _ _ _ _ rest condition conditions hregion hpop hrest =>
      obtain ⟨hfirst, hregions⟩ := List.forall_mem_cons.mp hregions
      obtain ⟨first, hstage, rfl, rfl, hquiet⟩ := hfirst _ _ _ hregion
      obtain ⟨conduct, displaced, hlater, hnothing⟩ := hrest.exists_stageLater logic hregions
      refine ⟨first.close.items ++ Placed.group (.unlessDecided logic condition conduct) rest,
        first.close.displaced ++ displaced, ?_, ?_, fun hnone => ?_⟩
      · simp only [Node.stage, hf, hpop, hstage, hlater, bind, Except.bind, pure_eq_ok]
      · rw [List.map_append, Placed.map_statement_group]
        rfl
      · obtain ⟨hnone, hnone'⟩ := List.append_eq_nil_iff.mp hnone
        rw [hnothing hnone']
        exact List.forall_mem_append.mpr ⟨hquiet hnone, List.forall_mem_nil _⟩
  | @loop _ _ _ _ _ _ condition _ _ hcondition hpop hbody =>
    obtain ⟨hfirst, hsecond⟩ := List.forall_mem_cons.mp hregions
    obtain ⟨before, hstage, rfl, rfl, hquiet⟩ := hfirst _ _ _ hcondition
    obtain ⟨inner, hinner, rfl, rfl, hquiet'⟩ := hsecond _ List.mem_cons_self _ _ _ hbody
    refine ⟨Placed.group (.rounds before.close.conduct condition inner.close.conduct)
      (before.close.statements ++ [.loop condition ⟨inner.close.statements, true⟩]),
      before.close.statements ++ before.close.displaced ++ inner.close.displaced, ?_,
      Placed.map_statement_group _ _, fun hnone => ?_⟩
    · simp only [Node.stage, hf, hpop, hstage, hinner, bind, Except.bind, pure_eq_ok]
    · obtain ⟨hnone, hnone'⟩ := List.append_eq_nil_iff.mp hnone
      obtain ⟨hbefore, hnone⟩ := List.append_eq_nil_iff.mp hnone
      rw [Staged.conduct_eq (hquiet hnone), Staged.conduct_eq (hquiet' hnone'), hbefore]
      exact List.forall_mem_singleton.mpr rfl
  | leave hloop | again hloop =>
    refine ⟨_, [], ?_, rfl, fun _ => List.forall_mem_singleton.mpr (Placed.faithful_own _)⟩
    simp only [Node.stage, hf, hloop, if_true]
  | @guarded _ _ _ _ hbody =>
    obtain ⟨inner, hstage, rfl, rfl, hquiet⟩ := hregions _ List.mem_cons_self _ _ _ hbody
    refine ⟨[⟨.guarded ⟨inner.close.statements, true⟩ none, .guarded inner.close.conduct .skip⟩],
      inner.close.displaced, ?_, rfl, fun hnone => List.forall_mem_singleton.mpr ?_⟩
    · simp only [Node.stage, hf, hstage, bind, Except.bind, pure_eq_ok]
    · rw [Staged.conduct_eq (hquiet hnone)]
      rfl
  | @guardedCleanup _ _ _ _ _ _ _ hcleanup hbody =>
    obtain ⟨hfirst, hsecond⟩ := List.forall_mem_cons.mp hregions
    obtain ⟨cleanup, hstage, rfl, rfl, hquiet⟩ := hfirst _ _ _ hcleanup
    obtain ⟨inner, hinner, rfl, rfl, hquiet'⟩ := hsecond _ List.mem_cons_self _ _ _ hbody
    refine ⟨[⟨.guarded ⟨inner.close.statements, true⟩ (some ⟨cleanup.close.statements, true⟩),
      .guarded inner.close.conduct cleanup.close.conduct⟩],
      cleanup.close.displaced ++ inner.close.displaced, ?_, rfl,
      fun hnone => List.forall_mem_singleton.mpr ?_⟩
    · simp only [Node.stage, hf, hstage, hinner, bind, Except.bind, pure_eq_ok]
    · obtain ⟨hnone, hnone'⟩ := List.append_eq_nil_iff.mp hnone
      rw [Staged.conduct_eq (hquiet hnone), Staged.conduct_eq (hquiet' hnone')]
      rfl
  | @statics _ _ _ _ hbody =>
    obtain ⟨inner, hstage, rfl, rfl, hquiet⟩ := hregions _ List.mem_cons_self _ _ _ hbody
    refine ⟨inner.close.items.map Placed.toStatic, inner.close.displaced, ?_, ?_, fun hnone => ?_⟩
    · simp only [Node.stage, hf, hstage, bind, Except.bind, pure_eq_ok]
    · simp only [Staged.statements, List.map_map]
      rfl
    · exact List.forall_mem_map.mpr fun p hp => (hquiet hnone p hp).toStatic

/-- A node is staged as it is built. -/
theorem Node.Moves.exists_stage {n : Node} {s : Stage} {d' : Draft}
    (hmoves : n.Moves (Machine.step d) s.draft d')
    (hregions : ∀ nodes ∈ n.regions false, RegionStages d nodes)
    (hfaithful : s.displaced = [] → s.Faithful) :
    ∃ s', n.stage d s = .ok s' ∧ s'.draft = d' ∧ (s'.displaced = [] → s'.Faithful) := by
  obtain ⟨draft, hdraft⟩ : ∃ draft, s.draft = draft := ⟨_, rfl⟩
  rw [hdraft] at hmoves
  cases hmoves with
  | block hfold =>
    rw [← hdraft] at hfold ⊢
    obtain ⟨s', hstage, hnext, hdisplaced, hkept⟩ := Stage.foldlM_step_of_foldlM_step hfold
    exact ⟨s', hstage, hnext, fun hnone => hkept (hfaithful (hdisplaced ▸ hnone))⟩
  | gives hgives =>
    rw [← hdraft] at hgives ⊢
    obtain ⟨items, displaced, hstage, rfl, hquiet⟩ := Gives.exists_stage hgives hregions
    refine ⟨_, hstage, s.draft_add _ items displaced, fun hnone => ?_⟩
    obtain ⟨hnone, hnone'⟩ := List.append_eq_nil_iff.mp hnone
    exact List.forall_mem_append.mpr ⟨hfaithful hnone, hquiet hnone'⟩
  | @routine header _ _ r hbuilt =>
    refine ⟨s.declare header r, ?_, ?_, hfaithful⟩
    · simp only [Node.stage, hbuilt, bind, Except.bind, pure_eq_ok]
    · rw [← hdraft]
      rfl

/-- The nodes of a region are staged as they are built. -/
theorem exists_stageNodes {nodes : List Node} {s : Stage} {d' : Draft}
    (hregions : ∀ n ∈ nodes, ∀ inner ∈ n.regions false, RegionStages d inner)
    (hfaithful : s.displaced = [] → s.Faithful)
    (hrun : buildNodes (Machine.step d) nodes s.draft = .ok ((), d')) :
    ∃ s', stageNodes d nodes s = .ok s' ∧ s'.draft = d' ∧ (s'.displaced = [] → s'.Faithful) := by
  induction nodes generalizing s with
  | nil =>
    cases hrun
    exact ⟨s, rfl, rfl, hfaithful⟩
  | cons n nodes ih =>
    obtain ⟨middle, hmoves, hrest⟩ := buildNodes_cons_eq_ok hrun
    obtain ⟨hfirst, hregions⟩ := List.forall_mem_cons.mp hregions
    obtain ⟨s₁, hstage, rfl, hmiddle⟩ := hmoves.exists_stage hfirst hfaithful
    obtain ⟨s₂, hothers, hlast, hfaithful₂⟩ := ih hregions hmiddle hrest
    refine ⟨s₂, ?_, hlast, hfaithful₂⟩
    simp only [stageNodes, hstage, hothers, bind, Except.bind]

/-- Every region that can be built can be staged. -/
theorem regionStages (d : Dialect) (nodes : List Node) : RegionStages d nodes := by
  induction nodes using regions_induction with
  | step nodes ih =>
    intro f ss f' hregion
    obtain ⟨draft, hrun, hclose⟩ := buildRegion_eq_ok hregion
    have hinner : ∀ n ∈ nodes, ∀ inner ∈ n.regions false, RegionStages d inner :=
      fun n hn inner hmem => ih n hn inner (n.regions_subset hmem)
    obtain ⟨s, hstage, rfl, hfaithful⟩ := exists_stageNodes (s := { fragment := f }) hinner
      (fun _ => List.forall_mem_nil _) hrun
    have hrenders := s.close_renders hfaithful
    rw [hclose] at hrenders
    exact ⟨s, hstage, hrenders⟩

end Regions

/-- What a block does is what its statements do. -/
theorem Block.conduct_eq (block : Block) : block.conduct = stmtsConduct block.statements := by
  obtain ⟨statements, _⟩ := block
  rfl

/-- Declaring local variables does nothing. -/
theorem stmtsConduct_localsDeclaration (names : List String) (ss : List Stmt) :
    stmtsConduct (localsDeclaration names ++ ss) = stmtsConduct ss := by
  unfold localsDeclaration
  split <;> rfl

/-- After the declaration of its local variables, a block has the statements that the code of a
fragment stands for. If no condition displaces any of them, the block does what the code does,
whatever the conditions are decided to be. -/
def RunsAs (dialect : Dialect) (p : RoutineHeader × List Node) (block : Block) (f : Fragment) :
    Prop :=
  ∃ code, stageRegion dialect p.2 (Fragment.start p.1.codeName p.1.name p.1.argCount) = .ok code ∧
    block.statements = localsDeclaration f.locals ++ code.statements ∧
    (code.displaced = [] → ∀ oracle bound history,
      block.conduct oracle bound history = code.conduct oracle bound history)

/-- The body of a routine runs as its code. -/
theorem runsAs_buildRoutine {dialect : Dialect} {header : RoutineHeader} {body : List Node}
    {r : Routine} {block : Block} (hrun : buildRoutine (Machine.step dialect) header body = .ok r)
    (hblock : r.body.statements = block.statements) :
    RunsAs dialect (header, body) block r.fragment := by
  obtain ⟨ss, f, hregion, hstatements, hfragment⟩ := buildRoutine_eq_ok hrun
  rw [f.finish_eq] at hstatements hfragment
  obtain ⟨s, hstage, rfl, -, hfaithful⟩ := regionStages dialect body _ _ _ hregion
  have hbody : block.statements =
      localsDeclaration r.fragment.locals ++ s.close.statements := by
    rw [← hblock, hstatements, hfragment]
  refine ⟨s.close, ?_, hbody, fun hdisplaced oracle bound history => ?_⟩
  · simp only [stageRegion, hstage, bind, Except.bind, pure_eq_ok]
  · rw [block.conduct_eq, hbody, stmtsConduct_localsDeclaration,
      Staged.conduct_eq (hfaithful hdisplaced)]

/-- The tree of an entry, and that of every routine in it, runs as its code. -/
theorem conditions_run_in_place {dialect : Dialect} {entry : Entry} {block : Block} {f : Fragment}
    (hbuild : entry.build dialect = .ok (block, f)) :
    RunsAs dialect (entry.header, entry.body) block f ∧
      ∀ p ∈ entry.fragments, ∃ r, buildRoutine (Machine.step dialect) p.1 p.2 = .ok r ∧
        RunsAs dialect p r.body r.fragment := by
  constructor
  · obtain ⟨r, hrun, hstatements, rfl⟩ := entry.build_eq_ok hbuild
    exact runsAs_buildRoutine hrun hstatements
  · intro p hp
    obtain ⟨r, hrun⟩ := entry.exists_buildRoutine hbuild p hp
    exact ⟨r, hrun, runsAs_buildRoutine hrun rfl⟩

namespace Sample

/-- The code that calls a function for nothing but its effect. -/
def callStep : Node :=
  .block ⟨0, [.call "step" 0, .plain .popDelete]⟩

/-- The code that counts a variable up and leaves its old value. -/
def countUpAfter : List Instruction :=
  [.pushVariable .push ⟨"i", .own⟩ .normal, .duplicate .variable 0 0, .pushImmediate 1,
    (Instruction.plain .add).withTypes .int32 .variable,
    .popVariable ⟨"i", .own⟩ .normal .variable]

/-- The code that compares what is on the stack to a variable. -/
def belowLimit : List Instruction :=
  [.pushVariable .push ⟨"n", .own⟩ .normal, .compare .less .variable .variable]

/-- A loop that counts up in its body. -/
def countingBody : Entry where
  name := "gml_Object_player_Step_0"
  body := [.loop [.block ⟨0, .pushVariable .push ⟨"i", .own⟩ .normal :: belowLimit⟩]
    [callStep, .block ⟨0, countUpAfter ++ [.plain .popDelete]⟩]]

/-- A loop that counts up in its condition. -/
def countingLoop : Entry where
  name := "gml_Object_player_Step_0"
  body := [.loop [.block ⟨0, countUpAfter ++ belowLimit⟩] [callStep]]

/-- A branch that counts up in the second condition of a chain. -/
def countingChain : Entry where
  name := "gml_Object_player_Step_0"
  body := [.chain .and [[.block ⟨0, [.pushVariable .push ⟨"active", .own⟩ .normal]⟩],
      [.block ⟨0, countUpAfter ++ belowLimit⟩]], .branch [callStep] none]

/-- A variable was assigned. -/
def assigned : Event → Bool
  | .did (.assign _ _) => true
  | .did _ | .tested _ _ => false

/-- Decides as many conditions in favour, and all others against. -/
def favour (count : Nat) : Oracle := fun history _ =>
  history.countP (fun | .tested _ _ => true | .did _ => false) < count

/-- If so many conditions are decided in favour, the tree of an entry and its code assign variables
so often. -/
def Assigns (entry : Entry) (favoured tree code : Nat) : Prop :=
  ∃ block f region, entry.build Version.current.dialect = .ok (block, f) ∧
    stageRegion Version.current.dialect entry.body
      (Fragment.start entry.name none entry.argCount) = .ok region ∧
    (block.conduct (favour favoured) 9 []).1.countP assigned = tree ∧
    (region.conduct (favour favoured) 9 []).1.countP assigned = code

/-- The numbers of assignments, if the tree can be built. -/
def assignments (entry : Entry) (favoured : Nat) : Option (Nat × Nat) :=
  match entry.build Version.current.dialect, stageRegion Version.current.dialect entry.body
      (Fragment.start entry.name none entry.argCount) with
  | .ok (block, _), .ok region =>
    some ((block.conduct (favour favoured) 9 []).1.countP assigned,
      (region.conduct (favour favoured) 9 []).1.countP assigned)
  | _, _ => none

/-- The number of assignments that is computed for an entry is the number that runs. -/
theorem assigns_of_assignments {entry : Entry} {favoured tree code : Nat}
    (hcounts : assignments entry favoured = some (tree, code)) :
    Assigns entry favoured tree code := by
  unfold assignments at hcounts
  split at hcounts
  · rename_i block f region hbuild hstage
    obtain ⟨htree, hcode⟩ := Prod.mk.inj (Option.some.inj hcounts)
    exact ⟨block, f, region, hbuild, hstage, htree, hcode⟩
  · cases hcounts

end Sample

/-- The body of the loop counts, and its condition gives no statement, so that nothing is
displaced. -/
theorem conditions_run_in_place_counting :
    ∃ block f code, Sample.countingBody.build Version.current.dialect = .ok (block, f) ∧
      stageRegion Version.current.dialect Sample.countingBody.body
        (Fragment.start Sample.countingBody.name none 0) = .ok code ∧
      code.displaced = [] ∧ block.conduct = code.conduct := by
  have hbuilds : (Sample.countingBody.build Version.current.dialect).toOption.isSome = true := by
    decide +kernel
  have hquiet : (stageRegion Version.current.dialect Sample.countingBody.body
      (Fragment.start Sample.countingBody.name none 0)).toOption.map
        (·.displaced.isEmpty) = some true := by
    decide +kernel
  cases hbuild : Sample.countingBody.build Version.current.dialect with
  | error fault =>
    rw [hbuild] at hbuilds
    cases hbuilds
  | ok result =>
    obtain ⟨⟨code, hstage, -, hruns⟩, -⟩ := conditions_run_in_place hbuild
    have hsame : stageRegion Version.current.dialect Sample.countingBody.body
      (Fragment.start Sample.countingBody.name none 0) = .ok code := hstage
    rw [hsame] at hquiet
    have hdisplaced : code.displaced = [] := List.isEmpty_iff.mp (Option.some.inj hquiet)
    refine ⟨result.1, result.2, code, rfl, hstage, hdisplaced, ?_⟩
    funext oracle bound history
    exact hruns hdisplaced oracle bound history

/-- An assignment in the condition of a loop is run once, where the code runs it before each of
three tests. One in the second condition of a chain is run although the first decides the chain. -/
theorem conditions_displaced :
    Sample.Assigns Sample.countingLoop 2 1 3 ∧ Sample.Assigns Sample.countingChain 0 1 0 ∧
      decompile Sample.countingLoop =
        .ok "i = i + 1;\nwhile (i < n) \x7b\n    step();\n\x7d\n" ∧
      decompile Sample.countingChain =
        .ok "i = i + 1;\nif (active && i < n) \x7b\n    step();\n\x7d\n" := by
  have hcounts : Sample.assignments Sample.countingLoop 2 = some (1, 3) ∧
      Sample.assignments Sample.countingChain 0 = some (1, 0) := by
    decide +kernel
  refine ⟨Sample.assigns_of_assignments hcounts.1, Sample.assigns_of_assignments hcounts.2, ?_⟩
  decide +kernel

end GmlDecompiler

import GmlDecompiler.Proofs.Execution.Conditions

/-!
# Conditions that only compute

Code that only computes gives no statement: it is made of chains and of straight code that stores
nothing, drops nothing and does not return. Where all conditions that are repeated or may be left
out only compute, nothing is displaced, so that the tree does what the structured code does. -/

namespace GmlDecompiler

/-- The instruction gives no statement, whatever is on the stack. -/
def Instruction.computes (i : Instruction) : Bool :=
  match i.opcode with
  | .ret | .exit | .popDelete => false
  | .pop => i.target.isNone
  | .multiply | .divide | .remainder | .modulo | .add | .subtract | .and | .or | .xor | .shiftLeft
  | .shiftRight | .compare | .negate | .not | .convert | .call | .callValue | .push | .pushLocal
  | .pushGlobal | .pushBuiltin | .pushImmediate | .duplicate | .extended | .branch | .branchTrue
  | .branchFalse | .pushContext | .popContext => true

/-- The node is a chain, or straight code that only computes. -/
def Node.computes : Node → Bool
  | .block straight => straight.code.all Instruction.computes
  | .chain _ _ => true
  | .branch _ _ | .loop _ _ | .leave | .again | .guarded _ _ | .statics _ | .routine _ _ => false

/-- All code of the region only computes. -/
def Computes (nodes : List Node) : Prop :=
  ∀ n ∈ nodesWithin false nodes, n.computes = true

/-- The condition of a loop, and all conditions of a chain but the first. -/
def Node.laterConditions : Node → List (List Node)
  | .loop condition _ => [condition]
  | .chain _ conditions => conditions.tail
  | .block _ | .branch _ _ | .leave | .again | .guarded _ _ | .statics _ | .routine _ _ => []

/-- The conditions inside the region that are repeated or may be left out only compute. -/
def QuietConditions (nodes : List Node) : Prop :=
  ∀ n ∈ nodesWithin false nodes, ∀ condition ∈ n.laterConditions, Computes condition

/-- An instruction that only computes gives no statements. -/
theorem Instruction.perform_of_computes {d : Dialect} {i : Instruction} {f f' : Fragment}
    {ss : List Stmt} (hi : i.computes = true) (hrun : i.perform d f = .ok (ss, f')) : ss = [] := by
  have hnothing : Keeps (fun _ => True) (pure [] : Action (List Stmt)) (· = []) := .pure rfl
  have hafter {α : Type} {x : Action α} {k : α → Action (List Stmt)}
      (hk : ∀ a, Keeps (fun _ => True) (k a) (· = [])) : Keeps (fun _ => True) (x >>= k) (· = []) :=
    Keeps.bind (P := fun _ => True) (fun _ _ _ _ _ => ⟨trivial, trivial⟩) fun a _ => hk a
  have hall : Keeps (fun _ => True) (i.perform d) (· = []) := by
    unfold perform
    unfold computes at hi
    cases hopcode : i.opcode with
    | ret | exit | popDelete => simp [hopcode] at hi
    | multiply | divide | remainder | modulo | add | subtract | and | or | xor | shiftLeft
    | shiftRight | compare | negate | not | convert | call | callValue | pushImmediate | duplicate
    | extended => exact hafter fun _ => hnothing
    | push | pushLocal | pushGlobal | pushBuiltin => exact hafter fun _ => hafter fun _ => hnothing
    | branch | branchTrue | branchFalse | pushContext | popContext => exact hnothing
    | pop =>
      have htarget : i.target.isNone = true := by simpa [hopcode] using hi
      rw [if_pos htarget]
      exact hafter fun _ => hnothing
  exact (hall f trivial ss f' hrun).2

section Stages

variable {d : Dialect} {s s' : Stage}

/-- What staging a node does if staging its regions does it, staging a region does. -/
theorem stageNodes_induction {P : Node → Prop} {R : Stage → Stage → Prop} (refl : ∀ s, R s s)
    (trans : ∀ s₁ s₂ s₃, R s₁ s₂ → R s₂ s₃ → R s₁ s₃)
    (step : ∀ n, P n →
      (∀ inner ∈ n.regions false, ∀ s s', stageNodes d inner s = .ok s' → R s s') →
      ∀ s s', n.stage d s = .ok s' → R s s')
    {nodes : List Node} (hnodes : ∀ n ∈ nodesWithin false nodes, P n) :
    ∀ s s', stageNodes d nodes s = .ok s' → R s s' := by
  induction nodes using regions_induction with
  | step nodes ih =>
    have hnode : ∀ n ∈ nodes, ∀ s s', n.stage d s = .ok s' → R s s' := by
      intro n hn
      have hsub : (n.within false).Sublist (nodesWithin false nodes) := within_sublist_of_mem hn
      refine step n (hnodes n (subset_nodesWithin nodes hn)) fun inner hinner => ?_
      refine ih n hn inner (n.regions_subset hinner) fun m hm => hnodes m ?_
      exact ((nodesWithin_sublist_within hinner).trans hsub).subset hm
    clear ih hnodes
    induction nodes with
    | nil =>
      intro s s' hrun
      cases hrun
      exact refl s
    | cons n nodes ih =>
      obtain ⟨hfirst, hnode⟩ := List.forall_mem_cons.mp hnode
      intro s s' hrun
      obtain ⟨middle, hstage, hrun⟩ := exists_of_bind_eq_ok hrun
      exact trans s middle s' (hfirst s middle hstage) (ih hnode middle s' hrun)

/-- Replaying an instruction that only computes changes nothing but the fragment. -/
theorem Stage.step_of_computes {i : Instruction} (hi : i.computes = true)
    (hstep : s.step d i = .ok s') : s' = { s with fragment := s'.fragment } := by
  obtain ⟨⟨ss, f⟩, hperform, hstep⟩ := exists_of_bind_eq_ok hstep
  obtain rfl := i.perform_of_computes hi hperform
  have hreturn : i.isReturn = false := by
    unfold Instruction.computes at hi
    unfold Instruction.isReturn
    cases hopcode : i.opcode <;> simp_all
  cases hstep
  simp [hreturn]

/-- Replaying straight code that only computes changes nothing but the fragment. -/
theorem Stage.foldlM_step_of_computes {code : List Instruction}
    (hcode : ∀ i ∈ code, i.computes = true) (hrun : code.foldlM (Stage.step d) s = .ok s') :
    s' = { s with fragment := s'.fragment } := by
  induction code generalizing s with
  | nil =>
    cases hrun
    rfl
  | cons i code ih =>
    obtain ⟨middle, hstep, hrest⟩ := exists_of_bind_eq_ok hrun
    obtain ⟨hi, hcode⟩ := List.forall_mem_cons.mp hcode
    rw [ih hcode hrest, Stage.step_of_computes hi hstep]

/-- Staging the region changes nothing but the fragment. -/
def LeavesOutput (d : Dialect) (nodes : List Node) : Prop :=
  ∀ s s', stageNodes d nodes s = .ok s' → s' = { s with fragment := s'.fragment }

/-- A region that changes nothing but the fragment gives nothing. -/
theorem LeavesOutput.close {nodes : List Node} {f : Fragment} (hnodes : LeavesOutput d nodes)
    (hstage : stageNodes d nodes { fragment := f } = .ok s) : s.close = ⟨[], s.fragment, []⟩ := by
  rw [hnodes _ _ hstage]
  rfl

/-- Later conditions that only compute give no statements. -/
theorem stageLater_of_leavesOutput {logic : Logic} {regions : List (List Node)} {f : Fragment}
    {later : LaterConditions} (hregions : ∀ nodes ∈ regions, LeavesOutput d nodes)
    (hrun : stageLater d logic regions f = .ok later) :
    later.statements = [] ∧ later.displaced = [] := by
  induction regions generalizing f later with
  | nil =>
    cases hrun
    exact ⟨rfl, rfl⟩
  | cons nodes regions ih =>
    obtain ⟨hfirst, hregions⟩ := List.forall_mem_cons.mp hregions
    obtain ⟨s, hstage, hrun⟩ := exists_of_bind_eq_ok hrun
    obtain ⟨⟨condition, g⟩, -, hrun⟩ := exists_of_bind_eq_ok hrun
    obtain ⟨rest, hrest, hrun⟩ := exists_of_bind_eq_ok hrun
    obtain ⟨hstatements, hdisplaced⟩ := ih hregions hrest
    cases hrun
    rw [hfirst.close hstage]
    exact ⟨hstatements, hdisplaced⟩

/-- A node that only computes changes nothing but the fragment, if its regions do not. -/
theorem Node.stage_of_computes {n : Node} (hn : n.computes = true)
    (hregions : ∀ nodes ∈ n.regions false, LeavesOutput d nodes)
    (hrun : n.stage d s = .ok s') : s' = { s with fragment := s'.fragment } := by
  cases n with
  | block straight => exact Stage.foldlM_step_of_computes (List.all_eq_true.mp hn) hrun
  | chain logic conditions =>
    cases conditions with
    | nil =>
      cases hrun
      simp [Stage.add]
    | cons nodes conditions =>
      obtain ⟨hfirst, hregions⟩ := List.forall_mem_cons.mp hregions
      obtain ⟨first, hstage, hrun⟩ := exists_of_bind_eq_ok hrun
      obtain ⟨⟨condition, g⟩, -, hrun⟩ := exists_of_bind_eq_ok hrun
      obtain ⟨later, hlater, hrun⟩ := exists_of_bind_eq_ok hrun
      obtain ⟨hstatements, hdisplaced⟩ := stageLater_of_leavesOutput hregions hlater
      cases hrun
      simp [Stage.add, hfirst.close hstage, hstatements, hdisplaced, Placed.group]
  | branch | loop | leave | again | guarded | statics | routine => cases hn

/-- Code that only computes changes nothing but the fragment. -/
theorem Computes.leavesOutput {nodes : List Node} (hnodes : Computes nodes) :
    LeavesOutput d nodes := by
  refine stageNodes_induction (R := fun s s' => s' = { s with fragment := s'.fragment })
    (fun _ => rfl) (fun s₁ s₂ s₃ hfirst hsecond => ?_)
    (fun n hn hregions s s' hrun => n.stage_of_computes hn hregions hrun) hnodes
  rw [hsecond, hfirst]

/-- Staging the region displaces nothing. -/
def DisplacesNothing (d : Dialect) (nodes : List Node) : Prop :=
  ∀ s s', stageNodes d nodes s = .ok s' → s'.displaced = s.displaced

/-- A region whose nodes displace nothing has nothing displaced when it is closed. -/
theorem DisplacesNothing.close {nodes : List Node} {f : Fragment} (hnodes : DisplacesNothing d nodes)
    (hstage : stageNodes d nodes { fragment := f } = .ok s) : s.close.displaced = [] :=
  hnodes _ _ hstage

/-- Straight code displaces nothing, since it contains no condition. -/
theorem Stage.foldlM_step_displaced {code : List Instruction}
    (hrun : code.foldlM (Stage.step d) s = .ok s') : s'.displaced = s.displaced := by
  induction code generalizing s with
  | nil =>
    cases hrun
    rfl
  | cons i code ih =>
    obtain ⟨middle, hstep, hrest⟩ := exists_of_bind_eq_ok hrun
    obtain ⟨⟨ss, f⟩, -, hstep⟩ := exists_of_bind_eq_ok hstep
    cases hstep
    exact (ih hrest).trans rfl

/-- A node whose later conditions only compute displaces nothing, if its regions do not. -/
theorem Node.stage_displaced {n : Node}
    (hquiet : ∀ condition ∈ n.laterConditions, Computes condition)
    (hregions : ∀ nodes ∈ n.regions false, DisplacesNothing d nodes)
    (hrun : n.stage d s = .ok s') : s'.displaced = s.displaced := by
  cases n with
  | block straight => exact Stage.foldlM_step_displaced hrun
  | branch thenPart elsePart =>
    cases elsePart with
    | none =>
      obtain ⟨⟨condition, f⟩, -, hrun⟩ := exists_of_bind_eq_ok hrun
      obtain ⟨inner, hinner, hrun⟩ := exists_of_bind_eq_ok hrun
      cases hrun
      simp [Stage.add, (hregions _ List.mem_cons_self).close hinner]
    | some elsePart =>
      obtain ⟨hfirst, hsecond⟩ := List.forall_mem_cons.mp hregions
      obtain ⟨⟨condition, f⟩, -, hrun⟩ := exists_of_bind_eq_ok hrun
      obtain ⟨inner, hinner, hrun⟩ := exists_of_bind_eq_ok hrun
      obtain ⟨other, hother, hrun⟩ := exists_of_bind_eq_ok hrun
      cases hrun
      simp [Stage.add, hfirst.close hinner, (hsecond _ List.mem_cons_self).close hother]
  | chain logic conditions =>
    cases conditions with
    | nil =>
      cases hrun
      simp [Stage.add]
    | cons nodes conditions =>
      obtain ⟨first, hstage, hrun⟩ := exists_of_bind_eq_ok hrun
      obtain ⟨⟨condition, f⟩, -, hrun⟩ := exists_of_bind_eq_ok hrun
      obtain ⟨later, hlater, hrun⟩ := exists_of_bind_eq_ok hrun
      obtain ⟨-, hdisplaced⟩ :=
        stageLater_of_leavesOutput (fun nodes hnodes => (hquiet nodes hnodes).leavesOutput) hlater
      cases hrun
      simp [Stage.add, (hregions _ List.mem_cons_self).close hstage, hdisplaced]
  | loop condition body =>
    obtain ⟨-, hsecond⟩ := List.forall_mem_cons.mp hregions
    obtain ⟨before, hstage, hrun⟩ := exists_of_bind_eq_ok hrun
    obtain ⟨⟨condition, f⟩, -, hrun⟩ := exists_of_bind_eq_ok hrun
    obtain ⟨inner, hinner, hrun⟩ := exists_of_bind_eq_ok hrun
    have hbefore := (hquiet _ List.mem_cons_self).leavesOutput.close hstage
    cases hrun
    simp [Stage.add, hbefore, Staged.statements, (hsecond _ List.mem_cons_self).close hinner]
  | leave | again =>
    unfold stage at hrun
    split at hrun
    · cases hrun
      simp [Stage.add]
    · cases hrun
  | guarded body cleanup =>
    cases cleanup with
    | none =>
      obtain ⟨inner, hinner, hrun⟩ := exists_of_bind_eq_ok hrun
      cases hrun
      simp [Stage.add, (hregions _ List.mem_cons_self).close hinner]
    | some cleanupPart =>
      obtain ⟨hfirst, hsecond⟩ := List.forall_mem_cons.mp hregions
      obtain ⟨cleanup, hcleanup, hrun⟩ := exists_of_bind_eq_ok hrun
      obtain ⟨inner, hinner, hrun⟩ := exists_of_bind_eq_ok hrun
      cases hrun
      simp [Stage.add, hfirst.close hcleanup, (hsecond _ List.mem_cons_self).close hinner]
  | statics body =>
    obtain ⟨inner, hinner, hrun⟩ := exists_of_bind_eq_ok hrun
    cases hrun
    simp [Stage.add, (hregions _ List.mem_cons_self).close hinner]
  | routine header body =>
    obtain ⟨r, -, hrun⟩ := exists_of_bind_eq_ok hrun
    cases hrun
    rfl

/-- A region whose later conditions only compute displaces nothing. -/
theorem QuietConditions.displacesNothing {nodes : List Node} (hquiet : QuietConditions nodes) :
    DisplacesNothing d nodes :=
  stageNodes_induction (R := fun s s' => s'.displaced = s.displaced) (fun _ => rfl)
    (fun _ _ _ hfirst hsecond => hsecond.trans hfirst)
    (fun n hn hregions _ _ hrun => n.stage_displaced hn hregions hrun) hquiet

end Stages

/-- If all conditions that are repeated or may be left out only compute, the tree of an entry does
what its code does, and so does that of every routine in it. -/
theorem conduct_eq_of_quietConditions {dialect : Dialect} {entry : Entry} {block : Block}
    {f : Fragment} (hbuild : entry.build dialect = .ok (block, f))
    (hquiet : ∀ p ∈ entry.fragments, QuietConditions p.2) :
    ∀ p ∈ entry.fragments, ∃ r code, buildRoutine (Machine.step dialect) p.1 p.2 = .ok r ∧
      stageRegion dialect p.2 (Fragment.start p.1.codeName p.1.name p.1.argCount) = .ok code ∧
      r.body.conduct = code.conduct := by
  intro p hp
  obtain ⟨r, hrun⟩ := entry.exists_buildRoutine hbuild p hp
  obtain ⟨code, hstage, -, hruns⟩ := runsAs_buildRoutine hrun rfl
  obtain ⟨s, hnodes, hclose⟩ := exists_of_bind_eq_ok hstage
  cases hclose
  have hdisplaced := (hquiet p hp).displacesNothing.close hnodes
  refine ⟨r, s.close, hrun, hstage, ?_⟩
  funext oracle bound history
  exact hruns hdisplaced oracle bound history

end GmlDecompiler

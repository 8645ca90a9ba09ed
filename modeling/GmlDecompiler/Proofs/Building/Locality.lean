import GmlDecompiler.Build
import GmlDecompiler.Proofs.Building.Instructions
import GmlDecompiler.Proofs.Codegen.Replay
import GmlDecompiler.Proofs.Computations

/-!
# The stack is used from the top

A region that is built on some stack is built in the same way on a deeper one: whatever lies
below stays there, and neither the statements nor the rest of the fragment depend on it. Only one
instruction can tell how deep the stack is, the one that drops an expression: on an empty stack it
does nothing, where on a deeper one it would drop what lies below. So what is built on a deeper
stack follows the strict builder, for which dropping from an empty stack is a fault.
-/

namespace GmlDecompiler

/-- The fragment with more expressions below its stack. -/
def Fragment.over (f : Fragment) (below : List Expr) : Fragment :=
  { f with stack := f.stack ++ below }

/-- The machine with more expressions below its stack. -/
def Machine.over (m : Machine) (below : List Expr) : Machine :=
  { m with fragment := m.fragment.over below }

/-- The region with more expressions below its stack. -/
def Draft.over (d : Draft) (below : List Expr) : Draft :=
  { d with fragment := d.fragment.over below }

/-- With nothing below, a fragment is as it was. -/
@[simp] theorem Fragment.over_nil (f : Fragment) : f.over [] = f := by
  cases f
  simp [Fragment.over]

/-- With nothing below, a region is as it was. -/
@[simp] theorem Draft.over_nil (d : Draft) : d.over [] = d := by
  simp [Draft.over]

/-- One instruction replayed strictly: to drop an expression, there has to be one. -/
def Machine.strictStep (d : Dialect) (m : Machine) (i : Instruction) : Except Fault Machine :=
  if i.opcode = .popDelete ∧ m.fragment.stack.isEmpty then .error (.stackUnderflow i.address)
  else m.step d i

/-- Where one computation succeeds, the other one does the same from a deeper state. -/
def Follows {σ α : Type} (deeper : σ → σ) (x y : StateT σ (Except Fault) α) : Prop :=
  ∀ s a s', x s = .ok (a, s') → y (deeper s) = .ok (a, deeper s')

namespace Follows

variable {σ α β : Type} {deeper : σ → σ} {x y : StateT σ (Except Fault) α}

/-- Giving a value does not look at the state. -/
theorem pure (a : α) : Follows deeper (pure a) (pure a) := by
  intro s b s' hrun
  cases hrun
  rfl

/-- A computation that fails has nothing to follow. -/
theorem throw (fault : Fault) :
    Follows deeper (throw fault : StateT σ (Except Fault) α) (throw fault) := by
  intro s a s' hrun
  cases hrun

/-- A change that can be made before or after the state is deepened. -/
theorem modify {change : σ → σ} (hchange : ∀ s, change (deeper s) = deeper (change s)) :
    Follows deeper (modify change : StateT σ (Except Fault) Unit) (modify change) := by
  intro s a s' hrun
  cases hrun
  rw [modify_apply, hchange]

/-- Computations in a row follow others in a row, if each one follows. -/
theorem bind {k l : α → StateT σ (Except Fault) β} (hxy : Follows deeper x y)
    (hkl : ∀ a, Follows deeper (k a) (l a)) : Follows deeper (x >>= k) (y >>= l) := by
  intro s b s' hrun
  obtain ⟨⟨a, middle⟩, hfirst, hsecond⟩ := exists_of_bind_eq_ok hrun
  have hdeep := hxy s a middle hfirst
  simp only [Bind.bind, StateT.bind, hdeep, Except.bind]
  exact hkl a middle b s' hsecond

end Follows

/-- Where the action succeeds, it does the same on a deeper stack. -/
abbrev Action.IsLocal {α : Type} (x : Action α) : Prop :=
  ∀ below, Follows (·.over below) x x

namespace Fragment

variable {f f' : Fragment}

/-- What is taken off a stack is taken off a deeper one. -/
theorem tryPop_over {e : Expr} (hpop : f.tryPop = some (e, f')) (below : List Expr) :
    (f.over below).tryPop = some (e, f'.over below) := by
  unfold tryPop at hpop ⊢
  cases hstack : f.stack with
  | nil =>
    rw [hstack] at hpop
    cases hpop
  | cons top rest =>
    rw [hstack] at hpop
    cases hpop
    simp [Fragment.over, hstack]

/-- Noting a local variable does not look at the stack. -/
theorem noteLocal_over (f : Fragment) (name : String) (below : List Expr) :
    (f.over below).noteLocal name = (f.noteLocal name).over below := by
  rw [noteLocal_eq, noteLocal_eq]
  rfl

/-- The routines that are pending have nothing to do with the stack. -/
theorem takePending_over (f : Fragment) (name : String) (below : List Expr) :
    (f.over below).takePending name =
      (f.takePending name).map fun (routine, f) => (routine, f.over below) := by
  simp only [takePending, Fragment.over, Option.map_map]
  rfl

end Fragment

namespace Action

/-- Popping an expression takes it from the top. -/
theorem pop_isLocal (address : UInt32) : (pop address).IsLocal := by
  intro below f e f' hrun
  unfold pop at hrun ⊢
  split at hrun
  · cases hrun
    rw [Fragment.tryPop_over ‹_›]
  · cases hrun

/-- Popping a condition takes it from the top. -/
theorem popCondition_isLocal (construct : Construct) : (popCondition construct).IsLocal := by
  intro below f e f' hrun
  unfold popCondition at hrun ⊢
  split at hrun
  · cases hrun
    rw [Fragment.tryPop_over ‹_›]
  · cases hrun

/-- Popping several expressions takes them from the top. -/
theorem popMany_isLocal (address : UInt32) (count : Nat) : (popMany address count).IsLocal := by
  intro below f es f' hrun
  unfold popMany at hrun ⊢
  split at hrun
  · rename_i hcount
    cases hrun
    have hdeep : count ≤ (f.over below).stack.length := by
      simp only [Fragment.over, List.length_append]
      omega
    rw [if_pos hdeep]
    simp only [Fragment.over, List.take_append_of_le_length hcount,
      List.drop_append_of_le_length hcount]
  · cases hrun

/-- Pushing an expression puts it on the top. -/
theorem push_isLocal (shape : Shape) : (push shape).IsLocal :=
  fun _ => .modify fun _ => rfl

end Action

/-- A segment that ends within a stack is the same on a deeper stack. -/
theorem Segment.take_append {bytes : Int} {stack : List Expr} {s : Segment}
    (htake : Segment.take bytes stack = some s) (below : List Expr) :
    Segment.take bytes (stack ++ below) = some { s with rest := s.rest ++ below } := by
  induction stack generalizing bytes s with
  | nil =>
    rw [Segment.take] at htake
    split at htake
    · cases htake
    · rename_i hbytes
      cases htake
      -- nothing is asked for, so nothing below is looked at
      cases below with
      | nil => simp [Segment.take, hbytes]
      | cons e below => simp [Segment.take, hbytes]
  | cons e stack ih =>
    rw [Segment.take] at htake
    rw [List.cons_append, Segment.take]
    split at htake
    · rename_i hbytes
      obtain ⟨inner, hinner, rfl⟩ := Option.map_eq_some_iff.mp htake
      rw [if_pos hbytes, ih hinner]
      rfl
    · rename_i hbytes
      cases htake
      rw [if_neg hbytes]
      rfl

namespace Instruction

variable {d : Dialect} (i : Instruction)

/-- Fetching a function looks at the pending routines and not at the stack. -/
theorem takeFunction_isLocal (name : String) : (takeFunction name).IsLocal := by
  intro below f shape f' hrun
  unfold takeFunction at hrun ⊢
  rw [Fragment.takePending_over]
  split at hrun
  · rename_i routine g htaken
    cases hrun
    rw [htaken]
    rfl
  · rename_i htaken
    cases hrun
    rw [htaken]
    rfl

section Duplicate

variable {stack stack' : List Expr}

/-- A segment that a stack has is the segment of the deeper stack as well, since it is measured from
the top. -/
theorem takeSegment_append {bytes : Int} {segment : Segment}
    (htake : i.takeSegment bytes stack = .ok segment) (below : List Expr) :
    i.takeSegment bytes (stack ++ below) = .ok { segment with rest := segment.rest ++ below } := by
  unfold takeSegment at htake ⊢
  split at htake
  · cases htake
    rw [Segment.take_append ‹_›]
  · cases htake

/-- A region that is copied is copied on a deeper stack too. -/
theorem copyRegion_append (hcopy : i.copyRegion stack = .ok stack') (below : List Expr) :
    i.copyRegion (stack ++ below) = .ok (stack' ++ below) := by
  obtain ⟨segment, hsegment, hcopy⟩ := exists_of_bind_eq_ok hcopy
  have hdeep := i.takeSegment_append hsegment below
  split at hcopy
  · cases hcopy
  · rename_i hends
    cases hcopy
    simp only [copyRegion, hdeep, bind, Except.bind, if_neg hends, pure_eq_ok, List.append_assoc]

/-- Regions that are exchanged are exchanged on a deeper stack too. -/
theorem swapRegions_append (hswap : i.swapRegions stack = .ok stack') (below : List Expr) :
    i.swapRegions (stack ++ below) = .ok (stack' ++ below) := by
  unfold swapRegions at hswap ⊢
  split at hswap
  · rename_i hnothing
    cases hswap
    rw [if_pos hnothing]
  · rename_i hregions
    obtain ⟨top, htop, hswap⟩ := exists_of_bind_eq_ok hswap
    obtain ⟨bottom, hbottom, hswap⟩ := exists_of_bind_eq_ok hswap
    have htopDeep := i.takeSegment_append htop below
    have hbottomDeep := i.takeSegment_append hbottom below
    split at hswap
    · cases hswap
    · rename_i hends
      cases hswap
      simp only [if_neg hregions, htopDeep, hbottomDeep, bind, Except.bind, if_neg hends,
        pure_eq_ok, List.append_assoc]

end Duplicate

/-- Duplicating and swapping succeed only if the stack is deep enough for them, and do the same on a
deeper one. -/
theorem performDuplicate_isLocal : i.performDuplicate.IsLocal := by
  intro below f u f' hrun
  have hstack : (f.over below).stack = f.stack ++ below := rfl
  unfold performDuplicate at hrun ⊢
  split at hrun
  · rename_i hplain
    obtain ⟨stack, hcopy, hrun⟩ := exists_of_bind_eq_ok hrun
    cases hrun
    simp only [if_pos hplain, hstack, i.copyRegion_append hcopy below, bind, Except.bind]
    rfl
  · rename_i hplain
    obtain ⟨stack, hswap, hrun⟩ := exists_of_bind_eq_ok hrun
    cases hrun
    simp only [if_neg hplain, hstack, i.swapRegions_append hswap below, bind, Except.bind]
    rfl

/-- The basic actions do the same on a deeper stack. -/
theorem isLocal_compositional : Action.Compositional fun _ x => x.IsLocal where
  pure a _ := .pure a
  bind hx hk below := .bind (hx below) fun a => hk a below
  malformed _ _ _ := .throw _
  pop := Action.pop_isLocal
  popMany := Action.popMany_isLocal
  push _ _ := .modify fun _ => rfl
  noteLocal name below := .modify fun f => f.noteLocal_over name below
  parentCall _ _ := .modify fun _ => rfl
  duplicate := performDuplicate_isLocal

/-- An instruction that drops no expression does the same on a deeper stack. -/
theorem perform_isLocal (hdrop : i.opcode ≠ .popDelete) : (i.perform d).IsLocal :=
  i.perform_of isLocal_compositional d (fun name _ => takeFunction_isLocal name)
    fun hopcode => absurd hopcode hdrop

/-- An expression that is dropped is dropped from a deeper stack too. -/
theorem discard_over {f f' : Fragment} {ss : List Stmt} (hstack : f.stack ≠ [])
    (hrun : discard f = .ok (ss, f')) (below : List Expr) :
    discard (f.over below) = .ok (ss, f'.over below) := by
  unfold discard at hrun ⊢
  split at hrun
  · rename_i hnone
    exact absurd ((f.tryPop_eq_none_iff).mp hnone) hstack
  · rename_i hpop
    cases hrun
    rw [Fragment.tryPop_over hpop]

end Instruction

/-- An instruction that is replayed strictly is replayed in the same way on a deeper stack. -/
theorem Machine.step_over {d : Dialect} {m m' : Machine} {i : Instruction}
    (hstrict : m.strictStep d i = .ok m') (below : List Expr) :
    (m.over below).step d i = .ok (m'.over below) := by
  unfold strictStep at hstrict
  split at hstrict
  · cases hstrict
  · rename_i hdrops
    obtain ⟨⟨ss, f⟩, hperform, hrun⟩ := exists_of_bind_eq_ok hstrict
    cases hrun
    have hdeep : i.perform d (m.fragment.over below) = .ok (ss, f.over below) := by
      by_cases hopcode : i.opcode = .popDelete
      · have hstack : m.fragment.stack ≠ [] := by
          intro hempty
          exact hdrops ⟨hopcode, by rw [hempty]; rfl⟩
        have hdiscard : i.perform d = Instruction.discard := by
          unfold Instruction.perform
          rw [hopcode]
        rw [hdiscard] at hperform ⊢
        exact Instruction.discard_over hstack hperform below
      · exact i.perform_isLocal hopcode below _ _ _ hperform
    simp only [Machine.step, Machine.over, hdeep, bind, Except.bind]
    rfl

/-- Where a replay succeeds, another one does the same on a deeper stack. -/
def Replay.Follows (strict real : Replay) : Prop :=
  ∀ m i m', strict m i = .ok m' → ∀ below, real (m.over below) i = .ok (m'.over below)

namespace Draft

/-- Declaring what is still pending has nothing to do with the stack. -/
theorem settle_over (ss : List Stmt) (f : Fragment) (declared : Nat × String)
    (below : List Expr) :
    settle (ss, f.over below) declared =
      ((settle (ss, f) declared).1, (settle (ss, f) declared).2.over below) := by
  simp only [settle, Fragment.takePending_over]
  cases f.takePending declared.2 <;> rfl

/-- Closing a region settles its declarations and does not look at the stack. -/
theorem close_over (d : Draft) (below : List Expr) :
    (d.over below).close = (d.close.1, d.close.2.over below) := by
  have hall (declared : List (Nat × String)) (ss : List Stmt) (f : Fragment) :
      declared.foldl settle (ss, f.over below) =
        ((declared.foldl settle (ss, f)).1, (declared.foldl settle (ss, f)).2.over below) := by
    induction declared generalizing ss f with
    | nil => rfl
    | cons first rest ih => rw [List.foldl_cons, List.foldl_cons, settle_over, ih]
  exact hall d.declared d.output d.fragment

/-- Declaring a routine does not look at the stack. -/
theorem declare_over (d : Draft) (header : RoutineHeader) (routine : Routine)
    (below : List Expr) :
    (d.over below).declare header routine = (d.declare header routine).over below := by
  simp only [declare, Draft.over]
  cases header.name <;> rfl

end Draft

namespace Building

variable {α : Type} {below : List Expr}

/-- A local action, done on the fragment of a region. -/
theorem onFragment_follows {x : Action α} (hx : x.IsLocal) :
    Follows (·.over below) (onFragment x) (onFragment x) := by
  intro d a d' hrun
  obtain ⟨⟨b, f⟩, hfirst, hrun⟩ := exists_of_bind_eq_ok hrun
  cases hrun
  have hdeep := hx below _ _ _ hfirst
  simp only [onFragment, Draft.over, hdeep, bind, Except.bind]
  rfl

/-- Appending statements does not look at the stack. -/
theorem emit_follows (ss : List Stmt) : Follows (·.over below) (emit ss) (emit ss) :=
  .modify fun _ => rfl

/-- Straight code, by induction on its instructions. -/
theorem replayAll_follows {strict real : Replay} (hreplay : strict.Follows real)
    (code : List Instruction) :
    Follows (·.over below) (replayAll strict code) (replayAll real code) := by
  have hall (m m' : Machine) (hrun : code.foldlM strict m = .ok m') :
      code.foldlM real (m.over below) = .ok (m'.over below) := by
    induction code generalizing m with
    | nil =>
      cases hrun
      rfl
    | cons i code ih =>
      obtain ⟨middle, hstep, hrest⟩ := exists_of_bind_eq_ok hrun
      have hdeep := hreplay m i middle hstep below
      simp only [List.foldlM_cons, hdeep, bind, Except.bind]
      exact ih middle hrest
  intro d u d' hrun
  obtain ⟨m, hfold, hrun⟩ := exists_of_bind_eq_ok hrun
  cases hrun
  have hdeep := hall _ _ hfold
  simp only [Machine.over] at hdeep
  simp only [replayAll, Draft.over, hdeep, bind, Except.bind]
  rfl

/-- A region of its own in a deeper fragment. -/
theorem region_follows {strict real : Building Unit} (hbody : Follows (·.over below) strict real) :
    Follows (·.over below) (region strict) (region real) := by
  intro d ss d' hrun
  obtain ⟨⟨_, inner⟩, hinner, hrun⟩ := exists_of_bind_eq_ok hrun
  cases hrun
  have hdeep := hbody _ _ _ hinner
  simp only [Draft.over] at hdeep
  simp only [region, Draft.over, hdeep, bind, Except.bind]
  have hclose := inner.close_over below
  simp only [Draft.over] at hclose
  rw [hclose]
  rfl

/-- A nested routine has a stack of its own. -/
theorem nested_follows {strict real : Building Unit} (hbody : Follows (·.over []) strict real)
    (header : RoutineHeader) :
    Follows (·.over below) (nested header strict) (nested header real) := by
  intro d u d' hrun
  obtain ⟨⟨_, inner⟩, hinner, hrun⟩ := exists_of_bind_eq_ok hrun
  cases hrun
  have hsame := hbody _ _ _ hinner
  simp only [Draft.over_nil] at hsame
  simp only [nested, hsame, bind, Except.bind, Draft.declare_over]
  rfl

/-- The body of a loop on a deeper stack: only the mark for the loop is set and put back. -/
theorem inLoop_follows {strict real : Building α} (hbody : Follows (·.over below) strict real) :
    Follows (·.over below) (inLoop strict) (inLoop real) := by
  intro d a d' hrun
  obtain ⟨⟨b, inner⟩, hinner, hrun⟩ := exists_of_bind_eq_ok hrun
  cases hrun
  have hdeep := hbody _ _ _ hinner
  simp only [Draft.over, Fragment.over] at hdeep
  simp only [inLoop, Draft.over, Fragment.over, hdeep, bind, StateT.bind, Except.bind, get_apply,
    modify_apply, pure_apply]

/-- Code that a cleanup is pending around, on a deeper stack. -/
theorem guardedBy_follows {strict real : Building α} (hbody : Follows (·.over below) strict real)
    (cleanup : Option (List Stmt)) :
    Follows (·.over below) (guardedBy cleanup strict) (guardedBy cleanup real) := by
  cases cleanup with
  | none => exact hbody
  | some statements =>
    refine .bind (.modify fun _ => rfl) fun _ => ?_
    refine .bind hbody fun _ => ?_
    refine .bind (.modify fun _ => rfl) fun _ => ?_
    exact .pure _

/-- A jump looks for a loop around it and not at the stack. -/
theorem jump_follows (jump : LoopJump) (s : Stmt) :
    Follows (·.over below) (Building.jump jump s) (Building.jump jump s) := by
  intro d u d' hrun
  have hloop : ((d.over below).fragment.inLoop = true) = (d.fragment.inLoop = true) := rfl
  simp only [Building.jump, bind, StateT.bind, get_apply, Except.bind, hloop] at hrun ⊢
  split at hrun
  · rename_i hin
    cases hrun
    rw [if_pos hin]
    rfl
  · cases hrun

end Building

mutual

/-- A node is built on a deeper stack as it is built strictly. -/
theorem Node.build_follows {strict real : Replay} (hreplay : strict.Follows real)
    (below : List Expr) (n : Node) :
    Follows (·.over below) (n.build strict) (n.build real) := by
  match n with
  | .block code => exact Building.replayAll_follows hreplay code.code
  | .branch thenPart elsePart =>
    refine .bind (Building.onFragment_follows (Action.popCondition_isLocal _)) fun _ => ?_
    refine .bind (Building.region_follows (buildNodes_follows hreplay below thenPart)) fun _ => ?_
    exact .bind (buildOptional_follows hreplay below elsePart) fun _ => Building.emit_follows _
  | .chain logic conditions =>
    refine .bind (buildConditions_follows hreplay below conditions) fun _ => ?_
    exact Building.onFragment_follows (Action.push_isLocal _)
  | .loop condition body =>
    refine .bind (Building.region_follows (buildNodes_follows hreplay below condition)) fun _ => ?_
    refine .bind (Building.emit_follows _) fun _ => ?_
    refine .bind (Building.onFragment_follows (Action.popCondition_isLocal _)) fun _ => ?_
    have hbody := Building.region_follows (buildNodes_follows hreplay below body)
    exact .bind (Building.inLoop_follows hbody) fun _ => Building.emit_follows _
  | .leave => exact Building.jump_follows _ _
  | .again => exact Building.jump_follows _ _
  | .guarded body cleanup =>
    refine .bind (buildOptional_follows hreplay below cleanup) fun after => ?_
    have hbody := Building.region_follows (buildNodes_follows hreplay below body)
    exact .bind (Building.guardedBy_follows hbody after) fun _ => Building.emit_follows _
  | .statics body =>
    refine .bind (Building.region_follows (buildNodes_follows hreplay below body)) fun _ => ?_
    exact Building.emit_follows _
  | .routine header body => exact Building.nested_follows (buildNodes_follows hreplay [] body) header

/-- The nodes of a region, built strictly, are built in the same way on a deeper stack. -/
theorem buildNodes_follows {strict real : Replay} (hreplay : strict.Follows real)
    (below : List Expr) (nodes : List Node) :
    Follows (·.over below) (buildNodes strict nodes) (buildNodes real nodes) := by
  match nodes with
  | [] => exact .pure _
  | n :: nodes =>
    exact .bind (n.build_follows hreplay below) fun _ => buildNodes_follows hreplay below nodes

/-- A region, if there is one, is built in the same way on a deeper stack. -/
theorem buildOptional_follows {strict real : Replay} (hreplay : strict.Follows real)
    (below : List Expr) (part : Option (List Node)) :
    Follows (·.over below) (buildOptional strict part) (buildOptional real part) := by
  match part with
  | none => exact .pure _
  | some nodes =>
    refine .bind (Building.region_follows (buildNodes_follows hreplay below nodes)) fun _ => ?_
    exact .pure _

/-- The conditions of a chain are built in the same way on a deeper stack. -/
theorem buildConditions_follows {strict real : Replay} (hreplay : strict.Follows real)
    (below : List Expr) (regions : List (List Node)) :
    Follows (·.over below) (buildConditions strict regions) (buildConditions real regions) := by
  match regions with
  | [] => exact .pure _
  | nodes :: regions =>
    refine .bind (Building.region_follows (buildNodes_follows hreplay below nodes)) fun _ => ?_
    refine .bind (Building.emit_follows _) fun _ => ?_
    refine .bind (Building.onFragment_follows (Action.popCondition_isLocal _)) fun _ => ?_
    exact .bind (buildConditions_follows hreplay below regions) fun _ => .pure _

end

/-- The stack is used from the top: a region that is built strictly on some stack is built on a
deeper one too. It gives the same statements, leaves what lies below where it is, and does the same
to the rest of the fragment. -/
theorem buildRegion_over {d : Dialect} {nodes : List Node} {f f' : Fragment} {ss : List Stmt}
    (hstrict : buildRegion (Machine.strictStep d) nodes f = .ok (ss, f')) (below : List Expr) :
    buildRegion (Machine.step d) nodes (f.over below) = .ok (ss, f'.over below) := by
  have hreplay : Replay.Follows (Machine.strictStep d) (Machine.step d) :=
    fun _ _ _ hstep below => Machine.step_over hstep below
  obtain ⟨⟨_, draft⟩, hnodes, hclose⟩ := exists_of_bind_eq_ok hstrict
  have hresult : draft.close = (ss, f') := Except.ok.inj hclose
  have hdeep : buildNodes (Machine.step d) nodes { fragment := f.over below } =
      .ok ((), draft.over below) := buildNodes_follows hreplay below nodes _ _ _ hnodes
  simp only [buildRegion, hdeep, bind, Except.bind, Draft.close_over, hresult, pure_eq_ok]

namespace Sample

/-- Code that takes a variable from the stack, counts it up and tests it. -/
def countUp : List Node :=
  [.block ⟨0, [.duplicate .variable 0 0, .pushImmediate 1,
      (Instruction.plain .add).withTypes .variable .int16,
      .popVariable ⟨"lives", .own⟩ .normal .variable,
      .pushImmediate 9, .compare .greater .variable .int16]⟩,
    .branch [.block ⟨0, [.plain .exit]⟩] none]

/-- A fragment with the variable on its stack. -/
def counting : Fragment :=
  (Fragment.start "gml_Object_player_Step_0" none 0).push
    (.ofShape (.access ⟨⟨"lives", .own⟩, .normal, .ofShape (.keyword .own), none, true, none⟩))

end Sample

/-- The code takes what is on the stack and leaves the string below where it is. -/
theorem buildRegion_over_countUp :
    ∃ ss f', buildRegion (Machine.strictStep Version.current.dialect) Sample.countUp
        Sample.counting = .ok (ss, f') ∧
      ss.length = 2 ∧ f'.stack.length = 0 ∧
      buildRegion (Machine.step Version.current.dialect) Sample.countUp
        (Sample.counting.over [.ofShape (.string "below")]) =
          .ok (ss, f'.over [.ofShape (.string "below")]) := by
  have hlengths : ((buildRegion (Machine.strictStep Version.current.dialect) Sample.countUp
      Sample.counting).toOption.map fun p => (p.1.length, p.2.stack.length)) = some (2, 0) := by
    decide +kernel
  cases hrun : buildRegion (Machine.strictStep Version.current.dialect) Sample.countUp
      Sample.counting with
  | error fault =>
    rw [hrun] at hlengths
    cases hlengths
  | ok result =>
    rw [hrun] at hlengths
    have hpair : (result.1.length, result.2.stack.length) = (2, 0) := Option.some.inj hlengths
    obtain ⟨hss, hstack⟩ := Prod.mk.inj hpair
    exact ⟨result.1, result.2, rfl, hss, hstack, buildRegion_over hrun _⟩

/-- Dropping from an empty stack gives no statement, where on a deeper stack it gives one. -/
example :
    let build := fun f => buildRegion (Machine.step Version.current.dialect)
      [.block ⟨0, [.plain .popDelete]⟩] f
    let f := Fragment.start "gml_Object_player_Step_0" none 0
    ((build f).toOption.map (·.1.length) = some 0) ∧
      (build (f.over [.ofShape (.string "below")])).toOption.map (·.1.length) = some 1 := by
  decide +kernel

end GmlDecompiler

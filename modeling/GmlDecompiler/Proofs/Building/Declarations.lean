import GmlDecompiler.Proofs.Building.Regions
import GmlDecompiler.Proofs.Codegen.Replay

/-!
# Declarations in statements

The routines that statements declare, and what straight code does to them. An instruction declares
no routine. It may take one that is pending, if it fetches it by name, and an early return may drop
statements that repeat a cleanup. What is dropped declares routines of the same names as the
cleanup, so that a routine of another name is never lost.
-/

namespace GmlDecompiler

mutual

/-- The routines that a statement declares, outside the bodies of other routines. -/
def Stmt.declarations : Stmt → List Routine
  | .block block => block.declarations
  | .branch _ thenPart elsePart => thenPart.declarations ++ optionalDeclarations elsePart
  | .loop _ body => body.declarations
  | .guarded body cleanup => body.declarations ++ optionalDeclarations cleanup
  | .routine routine => [routine]
  | .eval _ | .assign _ _ | .static _ _ | .ret _ | .exit | .leave | .again | .locals _
  | .enum _ => []

/-- The routines that a block declares. -/
def Block.declarations : Block → List Routine
  | ⟨statements, _⟩ => declarations statements

/-- The routines that a block declares, if there is one. -/
def optionalDeclarations : Option Block → List Routine
  | none => []
  | some block => block.declarations

/-- The routines that statements declare, outside the bodies of other routines. -/
def declarations : List Stmt → List Routine
  | [] => []
  | s :: ss => s.declarations ++ declarations ss

end

/-- The routines whose code has a name. -/
def named (name : String) (routines : List Routine) : List Routine :=
  routines.filter (·.fragment.codeName = name)

/-- The names of the code of some routines. -/
def codeNames (routines : List Routine) : List String :=
  routines.map (·.fragment.codeName)

section Lists

variable {name : String}

/-- Statements declare what each of them declares. -/
theorem declarations_eq (ss : List Stmt) : declarations ss = ss.flatMap Stmt.declarations := by
  induction ss with
  | nil => rfl
  | cons s ss ih => rw [declarations, ih, List.flatMap_cons]

/-- Statements in a row declare what both parts declare. -/
@[simp] theorem declarations_append (first second : List Stmt) :
    declarations (first ++ second) = declarations first ++ declarations second := by
  simp only [declarations_eq, List.flatMap_append]

/-- An assignment that declares a static variable declares no routine. -/
theorem declarations_map_toStatic (ss : List Stmt) :
    declarations (ss.map Stmt.toStatic) = declarations ss := by
  have hstatic (s : Stmt) : s.toStatic.declarations = s.declarations := by
    cases s <;> rfl
  simp only [declarations_eq, List.flatMap_map, hstatic]

/-- A routine put between statements is declared once more. -/
theorem declarations_insertIdx (ss : List Stmt) (position : Nat) (hposition : position ≤ ss.length)
    (r : Routine) :
    (declarations (ss.insertIdx position (.routine r))).Perm (r :: declarations ss) := by
  have hperm := List.perm_insertIdx (.routine r) ss hposition
  simp only [declarations_eq]
  exact hperm.flatMap_right Stmt.declarations

/-- The routines of a name in two lists. -/
@[simp] theorem named_append (first second : List Routine) :
    named name (first ++ second) = named name first ++ named name second :=
  List.filter_append _ _

/-- A routine is listed under the name of its code. -/
theorem mem_named {r : Routine} {routines : List Routine} :
    r ∈ named name routines ↔ r ∈ routines ∧ r.fragment.codeName = name := by
  simp [named]

/-- There is no routine of a name exactly if the name is not one of theirs. -/
theorem named_eq_nil_iff {routines : List Routine} :
    named name routines = [] ↔ name ∉ codeNames routines := by
  simp [named, codeNames, List.filter_eq_nil_iff]

/-- Fewer routines do not have a name that more of them lack. -/
theorem named_eq_nil_of_subset {few many : List Routine} (hsub : few ⊆ many)
    (hmany : named name many = []) : named name few = [] := by
  simp only [named, List.filter_eq_nil_iff] at hmany ⊢
  exact fun r hr => hmany r (hsub hr)

end Lists

section Same

/-- The same routine has the same code. -/
theorem Routine.codeName_of_same {a b : Routine} (hsame : a.same b = true) :
    a.fragment.codeName = b.fragment.codeName := by
  obtain ⟨_, _, _, ⟨_, _, _, _, _, _, _, _, _, _, _, _, _⟩, _, _, _, _⟩ := a
  unfold Routine.same Fragment.same at hsame
  simp only [Bool.and_eq_true, beq_iff_eq] at hsame
  simp only [hsame]

mutual

/-- The same statements declare routines of the same names. -/
theorem Stmt.codeNames_of_same (a b : Stmt) (hsame : a.same b = true) :
    codeNames a.declarations = codeNames b.declarations := by
  match a with
  | .block block =>
    cases b with
    | block other =>
      rw [Stmt.same] at hsame
      exact block.codeNames_of_same other hsame
    | _ => simp [Stmt.same] at hsame
  | .branch _ thenPart elsePart =>
    cases b with
    | branch _ otherThen otherElse =>
      simp only [Stmt.same, Bool.and_eq_true] at hsame
      simp only [Stmt.declarations, codeNames, List.map_append]
      exact congrArg₂ _ (thenPart.codeNames_of_same otherThen hsame.1.2)
        (optional_codeNames_of_same elsePart otherElse hsame.2)
    | _ => simp [Stmt.same] at hsame
  | .loop _ body =>
    cases b with
    | loop _ other =>
      simp only [Stmt.same, Bool.and_eq_true] at hsame
      exact body.codeNames_of_same other hsame.2
    | _ => simp [Stmt.same] at hsame
  | .guarded body cleanup =>
    cases b with
    | guarded other otherCleanup =>
      simp only [Stmt.same, Bool.and_eq_true] at hsame
      simp only [Stmt.declarations, codeNames, List.map_append]
      exact congrArg₂ _ (body.codeNames_of_same other hsame.1)
        (optional_codeNames_of_same cleanup otherCleanup hsame.2)
    | _ => simp [Stmt.same] at hsame
  | .routine r =>
    cases b with
    | routine other =>
      rw [Stmt.same] at hsame
      exact congrArg (fun name => [name]) (Routine.codeName_of_same hsame)
    | _ => simp [Stmt.same] at hsame
  | .eval _ | .assign _ _ | .static _ _ | .ret _ | .exit | .leave | .again | .locals _
  | .enum _ =>
    cases b with
    | block | branch | loop | guarded | routine => simp [Stmt.same] at hsame
    | _ => rfl
termination_by structural a

/-- Blocks that are the same, apart from the routines in them, declare routines of the same
names. -/
theorem Block.codeNames_of_same (a b : Block) (hsame : a.same b = true) :
    codeNames a.declarations = codeNames b.declarations := by
  match a, b with
  | ⟨ss, _⟩, ⟨others, _⟩ =>
    simp only [Block.same, Bool.and_eq_true] at hsame
    exact stmts_codeNames_of_same ss others hsame.1
termination_by structural a

/-- Blocks that may be missing, and are the same, declare routines of the same names. -/
theorem optional_codeNames_of_same (a b : Option Block)
    (hsame : sameOptionalBlock a b = true) :
    codeNames (optionalDeclarations a) = codeNames (optionalDeclarations b) := by
  match a, b with
  | none, none => rfl
  | some block, some other =>
    rw [sameOptionalBlock] at hsame
    exact block.codeNames_of_same other hsame
  | none, some _ | some _, none => simp [sameOptionalBlock] at hsame
termination_by structural a

/-- Statements that are the same declare routines of the same names, in the same order. -/
theorem stmts_codeNames_of_same (as bs : List Stmt) (hsame : sameStmts as bs = true) :
    codeNames (declarations as) = codeNames (declarations bs) := by
  match as, bs with
  | [], [] => rfl
  | a :: as, b :: bs =>
    simp only [sameStmts, Bool.and_eq_true] at hsame
    simp only [declarations, codeNames, List.map_append]
    exact congrArg₂ _ (a.codeNames_of_same b hsame.1) (stmts_codeNames_of_same as bs hsame.2)
  | [], _ :: _ | _ :: _, [] => simp [sameStmts] at hsame
termination_by structural as

end

end Same

namespace Fragment

variable {f f' f'' : Fragment} {name : String}

/-- No pending cleanup declares a routine of the name. -/
def CleanupsWithout (f : Fragment) (name : String) : Prop :=
  ∀ cleanup ∈ f.cleanups, named name (declarations cleanup) = []

/-- Dropping a copy of a cleanup drops statements from the end. -/
theorem dropCleanupCopy_isPrefix (f : Fragment) (output : List Stmt) :
    f.dropCleanupCopy output <+: output := by
  unfold dropCleanupCopy
  split
  · unfold dropTrailing
    dsimp only
    split
    · exact List.take_prefix _ _
    · exact List.prefix_rfl
  · exact List.prefix_rfl

/-- Dropping a copy of a cleanup keeps the routines that no cleanup declares. -/
theorem named_dropCleanupCopy (hcleanups : f.CleanupsWithout name) (output : List Stmt) :
    named name (declarations (f.dropCleanupCopy output)) = named name (declarations output) := by
  unfold dropCleanupCopy
  split
  · rename_i copy hcopy
    have hfree : named name (declarations copy) = [] :=
      hcleanups copy (List.mem_of_mem_head? hcopy)
    unfold dropTrailing
    dsimp only
    split
    · rename_i hends
      simp only [Bool.and_eq_true] at hends
      generalize hkept : output.length - copy.length = kept at hends ⊢
      have hdropped : named name (declarations (output.drop kept)) = [] := by
        rw [named_eq_nil_iff] at hfree ⊢
        rwa [← stmts_codeNames_of_same _ _ hends.2]
      calc named name (declarations (output.take kept))
          = named name (declarations (output.take kept)) ++
              named name (declarations (output.drop kept)) := by rw [hdropped, List.append_nil]
        _ = named name (declarations output) := by
          rw [← named_append, ← declarations_append, List.take_append_drop]
    · rfl
  · rfl

/-- The code of a fragment may take pending routines of certain names, and leaves its name, its
loop, its cleanups and the other pending routines alone. -/
structure Takes (names : String → Prop) (f f' : Fragment) : Prop where
  codeName : f'.codeName = f.codeName
  inLoop : f'.inLoop = f.inLoop
  cleanups : f'.cleanups = f.cleanups
  pending : ∀ k, f'.pending.lookup k = f.pending.lookup k ∨ names k ∧ f'.pending.lookup k = none

namespace Takes

variable {names names' : String → Prop}

/-- Code that does nothing takes nothing. -/
theorem refl (names : String → Prop) (f : Fragment) : f.Takes names f :=
  ⟨rfl, rfl, rfl, fun _ => .inl rfl⟩

/-- Code in a row takes what its parts take. -/
theorem trans (hfirst : f.Takes names f') (hsecond : f'.Takes names f'') : f.Takes names f'' where
  codeName := hsecond.codeName.trans hfirst.codeName
  inLoop := hsecond.inLoop.trans hfirst.inLoop
  cleanups := hsecond.cleanups.trans hfirst.cleanups
  pending k := by
    rcases hsecond.pending k with hsame | htaken
    · rw [hsame]
      exact hfirst.pending k
    · exact .inr htaken

/-- The names of what is taken may be described more loosely. -/
theorem mono (htakes : f.Takes names f') (himp : ∀ k, names k → names' k) :
    f.Takes names' f' :=
  { htakes with pending := fun k => (htakes.pending k).imp_right fun h => ⟨himp k h.1, h.2⟩ }

/-- A routine whose name is not taken is pending as before. -/
theorem lookup_eq (htakes : f.Takes names f') {k : String} (hk : ¬ names k) :
    f'.pending.lookup k = f.pending.lookup k :=
  (htakes.pending k).resolve_right fun htaken => hk htaken.1

/-- What is pending afterwards was pending before. -/
theorem lookup_of_lookup (htakes : f.Takes names f') {k : String} {r : Routine}
    (hlookup : f'.pending.lookup k = some r) : f.pending.lookup k = some r := by
  rcases htakes.pending k with hsame | ⟨-, hnone⟩
  · rw [← hsame, hlookup]
  · rw [hnone] at hlookup
    cases hlookup

/-- Code makes no routine pending. -/
theorem lookup_eq_none (htakes : f.Takes names f') {k : String}
    (hnone : f.pending.lookup k = none) : f'.pending.lookup k = none := by
  rcases htakes.pending k with hsame | ⟨-, htaken⟩
  · rw [hsame, hnone]
  · exact htaken

end Takes

/-- Looking a name up in a list looks at the first pair first. The names are compared by equality,
which the later case splits need. -/
theorem lookup_cons_pair (k name : String) (r : Routine) (rest : List (String × Routine)) :
    ((name, r) :: rest).lookup k = if k = name then some r else rest.lookup k := by
  rw [List.lookup_cons]
  by_cases hk : k = name
  · simp [hk]
  · simp [hk, beq_false_of_ne hk]

/-- A routine that is taken is no longer pending, and the others still are. -/
theorem lookup_filter_ne (pending : List (String × Routine)) (name k : String) :
    (pending.filter (·.1 != name)).lookup k = if k = name then none else pending.lookup k := by
  induction pending with
  | nil => simp
  | cons first rest ih =>
    obtain ⟨other, r⟩ := first
    by_cases hother : other = name
    · have hdrop : ((other, r) :: rest).filter (·.1 != name) = rest.filter (·.1 != name) := by
        simp [hother]
      rw [hdrop, ih, lookup_cons_pair]
      split <;> simp_all
    · have hkeep : ((other, r) :: rest).filter (·.1 != name) =
          (other, r) :: rest.filter (·.1 != name) := by
        simp [hother]
      rw [hkeep, lookup_cons_pair, lookup_cons_pair, ih]
      split <;> split <;> simp_all

/-- A routine that is put is pending under its name, and the others still are. -/
theorem lookup_putPending (pending : List (String × Routine)) (name k : String) (r : Routine) :
    (putPending name r pending).lookup k = if k = name then some r else pending.lookup k := by
  induction pending with
  | nil => rw [putPending, lookup_cons_pair]
  | cons first rest ih =>
    obtain ⟨other, s⟩ := first
    rw [putPending]
    split
    · rename_i hother
      rw [lookup_cons_pair, lookup_cons_pair, hother]
      split <;> rfl
    · rename_i hother
      rw [lookup_cons_pair, lookup_cons_pair, ih]
      split <;> split <;> simp_all

/-- What taking a routine does. -/
theorem takePending_eq_some {r : Routine} (htake : f.takePending name = some (r, f')) :
    f.pending.lookup name = some r ∧
      f' = { f with pending := f.pending.filter (·.1 != name) } := by
  obtain ⟨routine, hlookup, htaken⟩ := Option.map_eq_some_iff.mp htake
  cases htaken
  exact ⟨hlookup, rfl⟩

/-- If no routine can be taken, none is pending under the name. -/
theorem takePending_eq_none (htake : f.takePending name = none) :
    f.pending.lookup name = none :=
  Option.map_eq_none_iff.mp htake

/-- Taking a routine takes no other. -/
theorem takes_takePending {r : Routine} (htake : f.takePending name = some (r, f')) :
    f.Takes (· = name) f' := by
  obtain ⟨-, rfl⟩ := takePending_eq_some htake
  refine ⟨rfl, rfl, rfl, fun k => ?_⟩
  dsimp only
  rw [lookup_filter_ne]
  by_cases hk : k = name
  · exact .inr ⟨hk, if_pos hk⟩
  · exact .inl (if_neg hk)

/-- Taking an expression off the stack takes no routine. -/
theorem takes_tryPop {e : Expr} (hpop : f.tryPop = some (e, f')) (names : String → Prop) :
    f.Takes names f' := by
  unfold tryPop at hpop
  split at hpop
  · cases hpop
  · cases hpop
    exact { Takes.refl names f with }

end Fragment

/-- The action takes only pending routines of certain names. -/
def Action.TakesOnly (names : String → Prop) {α : Type} (x : Action α) : Prop :=
  ∀ (f : Fragment) a f', x f = .ok (a, f') → f.Takes names f'

namespace Action

variable {names : String → Prop}

/-- A change to the fragment that takes nothing but routines of certain names. -/
theorem takesOnly_modify {change : Fragment → Fragment}
    (hchange : ∀ f : Fragment, f.Takes names (change f)) :
    TakesOnly names (modify change : Action Unit) := by
  intro f a f' hrun
  cases hrun
  exact hchange f

/-- Popping an expression takes no routine. -/
theorem pop_takesOnly (address : UInt32) : (pop address).TakesOnly names := by
  intro f e f' hrun
  unfold pop at hrun
  split at hrun
  · cases hrun
    exact Fragment.takes_tryPop ‹_› names
  · cases hrun

/-- Popping a condition takes no routine. -/
theorem popCondition_takesOnly (construct : Construct) :
    (popCondition construct).TakesOnly names := by
  intro f e f' hrun
  unfold popCondition at hrun
  split at hrun
  · cases hrun
    exact Fragment.takes_tryPop ‹_› names
  · cases hrun

/-- Popping several expressions takes no routine. -/
theorem popMany_takesOnly (address : UInt32) (count : Nat) :
    (popMany address count).TakesOnly names := by
  intro f es f' hrun
  unfold popMany at hrun
  split at hrun
  · cases hrun
    exact { Fragment.Takes.refl names f with }
  · cases hrun

end Action

namespace Instruction

variable (d : Dialect) (i : Instruction)

/-- Duplicating and swapping take no routine. -/
theorem performDuplicate_takesOnly (names : String → Prop) :
    i.performDuplicate.TakesOnly names := by
  intro f u f' hrun
  unfold performDuplicate at hrun
  split at hrun
  · obtain ⟨stack, -, hrun⟩ := exists_of_bind_eq_ok hrun
    cases hrun
    exact { Fragment.Takes.refl names f with }
  · obtain ⟨stack, -, hrun⟩ := exists_of_bind_eq_ok hrun
    cases hrun
    exact { Fragment.Takes.refl names f with }

/-- The basic actions take no pending routine. -/
theorem takesOnly_compositional (names : String → Prop) :
    Action.Compositional fun _ x => x.TakesOnly names where
  pure a f _ _ hrun := by
    cases hrun
    exact .refl names f
  bind hx hk f b f' hrun := by
    obtain ⟨⟨a, middle⟩, hfirst, hsecond⟩ := exists_of_bind_eq_ok hrun
    exact (hx f a middle hfirst).trans (hk a middle b f' hsecond)
  malformed _ _ _ _ _ hrun := by cases hrun
  pop := Action.pop_takesOnly
  popMany := Action.popMany_takesOnly
  push _ := Action.takesOnly_modify fun f => { Fragment.Takes.refl names f with }
  noteLocal name := Action.takesOnly_modify fun f => by
    rw [f.noteLocal_eq]
    exact { Fragment.Takes.refl names f with }
  parentCall _ := Action.takesOnly_modify fun f => { Fragment.Takes.refl names f with }
  duplicate i := i.performDuplicate_takesOnly names

/-- An instruction takes a pending routine only if it fetches it. -/
theorem perform_takesOnly : (i.perform d).TakesOnly i.Fetches := by
  refine i.perform_of (takesOnly_compositional _) d ?_ ?_
  · intro name hfetch f shape f' hrun
    unfold takeFunction at hrun
    split at hrun
    · rename_i routine g htake
      cases hrun
      refine (Fragment.takes_takePending htake).mono fun k hk => ?_
      rw [hk]
      exact hfetch
    · cases hrun
      exact .refl _ f
  · intro _ f ss f' hrun
    unfold discard at hrun
    split at hrun
    · cases hrun
      exact .refl _ f
    · cases hrun
      exact Fragment.takes_tryPop ‹_› _

/-- An instruction gives no statement that declares a routine. -/
theorem declarations_perform {f f' : Fragment} {ss : List Stmt}
    (hrun : i.perform d f = .ok (ss, f')) : declarations ss = [] := by
  have hafter {α : Type} {x : Action α} {k : α → Action (List Stmt)}
      (hk : ∀ a, Keeps (fun _ => True) (k a) fun ss => declarations ss = []) :
      Keeps (fun _ => True) (x >>= k) fun ss => declarations ss = [] :=
    Keeps.bind (P := fun _ => True) (fun _ _ _ _ _ => ⟨trivial, trivial⟩) fun a _ => hk a
  have hall : Keeps (fun _ => True) (i.perform d) fun ss => declarations ss = [] := by
    unfold perform
    cases i.opcode with
    | multiply | divide | remainder | modulo | add | subtract | and | or | xor | shiftLeft
    | shiftRight | compare | negate | not | convert | call | callValue | pushImmediate | duplicate
    | extended => exact hafter fun _ => .pure rfl
    | push | pushLocal | pushGlobal | pushBuiltin => exact hafter fun _ => hafter fun _ => .pure rfl
    | ret => exact hafter fun _ => .pure rfl
    | exit | branch | branchTrue | branchFalse | pushContext | popContext => exact .pure rfl
    | popDelete =>
      intro f _ ss f' hrun
      refine ⟨trivial, ?_⟩
      have hrun : discard f = .ok (ss, f') := hrun
      unfold discard at hrun
      split at hrun
      · cases hrun
        rfl
      · cases hrun
        split <;> rfl
    | pop =>
      dsimp only
      split
      · exact hafter fun _ => .pure rfl
      · refine hafter fun (access, value) => ?_
        dsimp only
        split <;> exact .pure rfl
  exact (hall f trivial ss f' hrun).2

end Instruction

/-- What straight code does to the routines of a region. -/
structure Machine.Replays (code : List Instruction) (m m' : Machine) : Prop where
  takes : m.fragment.Takes (fun name => ∃ i ∈ code, i.Fetches name) m'.fragment
  fewer : (declarations m'.output).Sublist (declarations m.output)
  kept : ∀ name, m.fragment.CleanupsWithout name →
    named name (declarations m'.output) = named name (declarations m.output)
  appends : m.fragment.cleanups = [] → ∃ new, m'.output = m.output ++ new ∧ declarations new = []

namespace Machine.Replays

variable {d : Dialect} {m m' m'' : Machine}

/-- One instruction declares nothing, and drops at most a copy of a cleanup. -/
theorem step {i : Instruction} (hstep : m.step d i = .ok m') : Replays [i] m m' := by
  obtain ⟨⟨ss, f⟩, hperform, hrun⟩ := exists_of_bind_eq_ok hstep
  cases hrun
  have htakes := i.perform_takesOnly d m.fragment ss f hperform
  have hss := i.declarations_perform d hperform
  have hcleanups (name : String) (hwithout : m.fragment.CleanupsWithout name) :
      f.CleanupsWithout name := by
    unfold Fragment.CleanupsWithout
    rw [htakes.cleanups]
    exact hwithout
  refine ⟨htakes.mono fun name hfetch => ⟨i, List.mem_singleton_self i, hfetch⟩, ?_, ?_, ?_⟩
  · dsimp only
    rw [declarations_append, hss, List.append_nil]
    split
    · obtain ⟨dropped, houtput⟩ := f.dropCleanupCopy_isPrefix m.output
      rw [← houtput, declarations_append, houtput]
      exact List.sublist_append_left _ _
    · exact List.Sublist.refl _
  · intro name hwithout
    dsimp only
    rw [declarations_append, hss, List.append_nil]
    split
    · exact Fragment.named_dropCleanupCopy (hcleanups name hwithout) m.output
    · rfl
  · intro hnone
    have hsame : f.dropCleanupCopy m.output = m.output := by
      simp [Fragment.dropCleanupCopy, Fragment.cleanup?, htakes.cleanups, hnone]
    dsimp only
    rw [hsame, ite_self]
    exact ⟨ss, rfl, hss⟩

/-- What two pieces of code in a row take, drop and append adds up. -/
theorem trans {first second : List Instruction} (hfirst : Replays first m m')
    (hsecond : Replays second m' m'') : Replays (first ++ second) m m'' where
  takes := by
    refine (hfirst.takes.mono ?_).trans (hsecond.takes.mono ?_)
    · rintro name ⟨i, hi, hfetch⟩
      exact ⟨i, List.mem_append_left _ hi, hfetch⟩
    · rintro name ⟨i, hi, hfetch⟩
      exact ⟨i, List.mem_append_right _ hi, hfetch⟩
  fewer := hsecond.fewer.trans hfirst.fewer
  kept name hwithout := by
    have hlater : m'.fragment.CleanupsWithout name := by
      unfold Fragment.CleanupsWithout
      rw [hfirst.takes.cleanups]
      exact hwithout
    rw [hsecond.kept name hlater, hfirst.kept name hwithout]
  appends hnone := by
    obtain ⟨new, houtput, hnew⟩ := hfirst.appends hnone
    obtain ⟨newer, houtput', hnewer⟩ := hsecond.appends (hfirst.takes.cleanups.trans hnone)
    refine ⟨new ++ newer, by rw [houtput', houtput, List.append_assoc], ?_⟩
    rw [declarations_append, hnew, hnewer, List.append_nil]

/-- Straight code declares nothing, and drops at most copies of cleanups. -/
theorem run {code : List Instruction} (hrun : code.foldlM (Machine.step d) m = .ok m') :
    Replays code m m' := by
  induction code generalizing m with
  | nil =>
    cases hrun
    exact ⟨.refl _ _, List.Sublist.refl _, fun _ _ => rfl,
      fun _ => ⟨[], (List.append_nil _).symm, rfl⟩⟩
  | cons i code ih =>
    obtain ⟨middle, hstep, hrest⟩ := exists_of_bind_eq_ok hrun
    exact (step hstep).trans (ih hrest)

end Machine.Replays

end GmlDecompiler

import GmlDecompiler.Build
import GmlDecompiler.Proofs.Building.Instructions
import GmlDecompiler.Proofs.Computations

/-!
# Regions and fragments

Structured code is made of regions, and each region belongs to the fragment of the routine around
it. What is true of a region if it is true of the regions inside it is true of all regions. How a
node is built is said once: straight code is replayed, a routine is built on its own and declared,
and any other node builds its regions one after another and appends statements to the output.
-/

namespace GmlDecompiler

namespace Node

/-- The regions right inside a node. The body of a routine is one only if nested fragments are
looked into. -/
def regions (deep : Bool) : Node → List (List Node)
  | .branch thenPart elsePart => thenPart :: elsePart.toList
  | .chain _ conditions => conditions
  | .loop condition body => [condition, body]
  | .guarded body cleanup => cleanup.toList ++ [body]
  | .statics body => [body]
  | .routine _ body => if deep then [body] else []
  | .block _ | .leave | .again => []

/-- The routine that a node declares. -/
def routine? : Node → Option (RoutineHeader × List Node)
  | .routine header body => some (header, body)
  | .block _ | .branch _ _ | .chain _ _ | .loop _ _ | .leave | .again | .guarded _ _
  | .statics _ => none

/-- The instructions of a node that is straight code. -/
def code : Node → List Instruction
  | .block straight => straight.code
  | .branch _ _ | .chain _ _ | .loop _ _ | .leave | .again | .guarded _ _ | .statics _
  | .routine _ _ => []

end Node

mutual

/-- The node and all nodes inside it, those of nested fragments only if they are looked into. -/
def Node.within (deep : Bool) : Node → List Node
  | .block code => [.block code]
  | .branch thenPart elsePart =>
    .branch thenPart elsePart :: (nodesWithin deep thenPart ++ optionalWithin deep elsePart)
  | .chain logic conditions => .chain logic conditions :: regionsWithin deep conditions
  | .loop condition body =>
    .loop condition body :: (nodesWithin deep condition ++ nodesWithin deep body)
  | .leave => [.leave]
  | .again => [.again]
  | .guarded body cleanup =>
    .guarded body cleanup :: (optionalWithin deep cleanup ++ nodesWithin deep body)
  | .statics body => .statics body :: nodesWithin deep body
  | .routine header body => .routine header body :: if deep then nodesWithin deep body else []

/-- The nodes of a region and all nodes inside them. -/
def nodesWithin (deep : Bool) : List Node → List Node
  | [] => []
  | n :: nodes => n.within deep ++ nodesWithin deep nodes

/-- The nodes of a region, if there is one, and all nodes inside them. -/
def optionalWithin (deep : Bool) : Option (List Node) → List Node
  | none => []
  | some nodes => nodesWithin deep nodes

/-- The nodes of some regions and all nodes inside them. -/
def regionsWithin (deep : Bool) : List (List Node) → List Node
  | [] => []
  | nodes :: regions => nodesWithin deep nodes ++ regionsWithin deep regions

end

/-- The routines that are declared by some nodes. -/
def routinesAmong (nodes : List Node) : List (RoutineHeader × List Node) :=
  nodes.filterMap Node.routine?

/-- The names of the code of the routines that are declared by some nodes. -/
def declaredNames (nodes : List Node) : List String :=
  (routinesAmong nodes).map (·.1.codeName)

/-- An instruction of some nodes fetches the routine of a name. -/
def Fetched (nodes : List Node) (name : String) : Prop :=
  ∃ i ∈ nodes.flatMap Node.code, i.Fetches name

instance (nodes : List Node) (name : String) : Decidable (Fetched nodes name) :=
  inferInstanceAs (Decidable (∃ i ∈ _, _))

/-- The regions of a fragment: its body, and every region inside it at any depth. -/
def regionsOf (body : List Node) : List (List Node) :=
  body :: (nodesWithin false body).flatMap (Node.regions false)

/-- What is known of an entry before its body. -/
def Entry.header (entry : Entry) : RoutineHeader where
  codeName := entry.name
  argCount := entry.argCount

/-- The fragments of an entry: its own, and that of every routine declared in it at any depth. -/
def Entry.fragments (entry : Entry) : List (RoutineHeader × List Node) :=
  (entry.header, entry.body) :: routinesAmong (nodesWithin true entry.body)

section Within

variable {deep : Bool}

/-- The nodes inside some regions are those inside each of them. -/
theorem regionsWithin_eq (regions : List (List Node)) :
    regionsWithin deep regions = regions.flatMap (nodesWithin deep) := by
  induction regions with
  | nil => rfl
  | cons nodes regions ih => rw [regionsWithin, ih, List.flatMap_cons]

/-- The nodes inside a region are those inside each node of it. -/
theorem nodesWithin_eq (nodes : List Node) :
    nodesWithin deep nodes = nodes.flatMap (Node.within deep) := by
  induction nodes with
  | nil => rfl
  | cons n nodes ih => rw [nodesWithin, ih, List.flatMap_cons]

/-- The nodes inside two regions in a row. -/
theorem nodesWithin_append (first second : List Node) :
    nodesWithin deep (first ++ second) = nodesWithin deep first ++ nodesWithin deep second := by
  simp only [nodesWithin_eq, List.flatMap_append]

/-- The nodes inside a node are those of its regions. -/
theorem Node.within_eq (n : Node) :
    n.within deep = n :: (n.regions deep).flatMap (nodesWithin deep) := by
  cases n with
  | branch thenPart elsePart => cases elsePart <;> simp [within, optionalWithin, regions]
  | guarded body cleanup => cases cleanup <;> simp [within, optionalWithin, regions]
  | chain logic conditions => simp [within, regionsWithin_eq, regions]
  | routine header body => cases deep <;> simp [within, regions]
  | block | loop | leave | again | statics => simp [within, regions]

/-- The nodes of a region are inside it. -/
theorem subset_nodesWithin (nodes : List Node) : nodes ⊆ nodesWithin deep nodes := by
  intro n hn
  rw [nodesWithin_eq]
  refine List.mem_flatMap.mpr ⟨n, hn, ?_⟩
  rw [Node.within_eq]
  exact List.mem_cons_self

/-- The nodes inside a node of a region are inside the region. -/
theorem within_sublist_of_mem {nodes : List Node} {n : Node} (hn : n ∈ nodes) :
    (n.within deep).Sublist (nodesWithin deep nodes) := by
  obtain ⟨before, after, rfl⟩ := List.append_of_mem hn
  rw [nodesWithin_append, nodesWithin]
  exact (List.sublist_append_left _ _).trans (List.sublist_append_right _ _)

/-- The nodes of a region inside a node are inside the node. -/
theorem nodesWithin_sublist_within {n : Node} {nodes : List Node}
    (hnodes : nodes ∈ n.regions deep) : (nodesWithin deep nodes).Sublist (n.within deep) := by
  obtain ⟨before, after, hregions⟩ := List.append_of_mem hnodes
  rw [Node.within_eq, hregions, List.flatMap_append, List.flatMap_cons]
  exact ((List.sublist_append_left _ _).trans (List.sublist_append_right _ _)).cons _

/-- The regions inside a node are smaller than the node. -/
theorem Node.sizeOf_lt_of_mem_regions {n : Node} {nodes : List Node}
    (hnodes : nodes ∈ n.regions true) : sizeOf nodes < sizeOf n := by
  cases n with
  | branch thenPart elsePart =>
    cases elsePart <;> simp [regions] at hnodes
    · subst hnodes
      simp +arith
    · rcases hnodes with rfl | rfl <;> simp +arith
  | chain logic conditions =>
    have hmem : nodes ∈ conditions := hnodes
    have hlt := List.sizeOf_lt_of_mem hmem
    simp only [chain.sizeOf_spec]
    omega
  | guarded body cleanup =>
    cases cleanup <;> simp [regions] at hnodes
    · subst hnodes
      simp +arith
    · rcases hnodes with rfl | rfl <;> simp +arith
  | loop condition body =>
    simp [regions] at hnodes
    rcases hnodes with rfl | rfl <;> simp +arith
  | statics body | routine header body =>
    simp [regions] at hnodes
    subst hnodes
    simp +arith
  | block | leave | again => simp [regions] at hnodes

/-- What is true of a region if it is true of the regions inside it is true of every region. -/
theorem regions_induction {P : List Node → Prop}
    (step : ∀ nodes, (∀ n ∈ nodes, ∀ inner ∈ n.regions true, P inner) → P nodes)
    (nodes : List Node) : P nodes :=
  step nodes fun _ hn inner hinner =>
    have : sizeOf inner < sizeOf nodes :=
      Nat.lt_trans (Node.sizeOf_lt_of_mem_regions hinner) (List.sizeOf_lt_of_mem hn)
    regions_induction step inner
termination_by sizeOf nodes

/-- Looking into nested fragments leaves out no region. -/
theorem Node.regions_subset (n : Node) : n.regions deep ⊆ n.regions true := by
  intro nodes hnodes
  cases n with
  | routine header body =>
    cases deep with
    | false => cases hnodes
    | true => exact hnodes
  | block | branch | chain | loop | leave | again | guarded | statics => exact hnodes

/-- The nodes inside a node that is inside a region are inside the region too. -/
theorem within_sublist_of_mem_nodesWithin (nodes : List Node) :
    ∀ n ∈ nodesWithin deep nodes, (n.within deep).Sublist (nodesWithin deep nodes) := by
  induction nodes using regions_induction with
  | step nodes ih =>
    intro n hn
    rw [nodesWithin_eq] at hn
    obtain ⟨outer, houter, hn⟩ := List.mem_flatMap.mp hn
    rw [Node.within_eq] at hn
    rcases List.mem_cons.mp hn with rfl | hn
    · exact within_sublist_of_mem houter
    · obtain ⟨inner, hinner, hn⟩ := List.mem_flatMap.mp hn
      have hsub := ih outer houter inner (outer.regions_subset hinner) n hn
      exact (hsub.trans (nodesWithin_sublist_within hinner)).trans (within_sublist_of_mem houter)

/-- A region of a fragment has all its nodes there. -/
theorem nodesWithin_sublist_of_mem_regionsOf {body nodes : List Node}
    (hnodes : nodes ∈ regionsOf body) :
    (nodesWithin false nodes).Sublist (nodesWithin false body) := by
  rcases List.mem_cons.mp hnodes with rfl | hnodes
  · exact List.Sublist.refl _
  · obtain ⟨n, hn, hnodes⟩ := List.mem_flatMap.mp hnodes
    exact (nodesWithin_sublist_within hnodes).trans (within_sublist_of_mem_nodesWithin body n hn)

/-- Looking into nested fragments leaves out nothing. -/
theorem nodesWithin_false_sublist (nodes : List Node) :
    (nodesWithin false nodes).Sublist (nodesWithin true nodes) := by
  have hflat {α : Type} {few many : α → List Node} (as : List α)
      (hall : ∀ a ∈ as, (few a).Sublist (many a)) :
      (as.flatMap few).Sublist (as.flatMap many) := by
    induction as with
    | nil => exact List.Sublist.refl _
    | cons a as ih =>
      obtain ⟨ha, has⟩ := List.forall_mem_cons.mp hall
      rw [List.flatMap_cons, List.flatMap_cons]
      exact ha.append (ih has)
  induction nodes using regions_induction with
  | step nodes ih =>
    rw [nodesWithin_eq, nodesWithin_eq]
    refine hflat nodes fun n hn => ?_
    rw [Node.within_eq, Node.within_eq]
    refine List.Sublist.cons_cons n ?_
    cases n with
    | routine header body => exact List.nil_sublist _
    | block | branch | chain | loop | leave | again | guarded | statics =>
      exact hflat _ fun inner hinner => ih _ hn inner hinner

/-- What is true of a fragment if it is true of the routines declared right in it is true of every
fragment. -/
theorem fragments_induction {P : List Node → Prop}
    (step : ∀ body, (∀ p ∈ routinesAmong (nodesWithin false body), P p.2) → P body)
    (body : List Node) : P body := by
  refine step body ?_
  induction body using regions_induction with
  | step nodes ih =>
    intro p hp
    obtain ⟨n, hn, hroutine⟩ := List.mem_filterMap.mp hp
    rw [nodesWithin_eq] at hn
    obtain ⟨outer, houter, hn⟩ := List.mem_flatMap.mp hn
    rw [Node.within_eq] at hn
    rcases List.mem_cons.mp hn with rfl | hn
    · cases n with
      | routine header body =>
        cases hroutine
        exact step body (ih _ houter body List.mem_cons_self)
      | block | branch | chain | loop | leave | again | guarded | statics => cases hroutine
    · obtain ⟨inner, hinner, hn⟩ := List.mem_flatMap.mp hn
      exact ih outer houter inner (outer.regions_subset hinner) p
        (List.mem_filterMap.mpr ⟨n, hn, hroutine⟩)

/-- The body of a routine inside some nodes is inside them. -/
theorem nodesWithin_sublist_of_mem_routinesAmong {nodes : List Node}
    {p : RoutineHeader × List Node} (hp : p ∈ routinesAmong (nodesWithin true nodes)) :
    (nodesWithin true p.2).Sublist (nodesWithin true nodes) := by
  obtain ⟨n, hn, hroutine⟩ := List.mem_filterMap.mp hp
  cases n with
  | routine header body =>
    cases hroutine
    have hbody : body ∈ (Node.routine header body).regions true := List.mem_cons_self
    exact (nodesWithin_sublist_within hbody).trans (within_sublist_of_mem_nodesWithin nodes _ hn)
  | block | branch | chain | loop | leave | again | guarded | statics => cases hroutine

/-- The body of every fragment of an entry is inside the entry. -/
theorem Entry.nodesWithin_sublist_of_mem_fragments {entry : Entry}
    {p : RoutineHeader × List Node} (hp : p ∈ entry.fragments) :
    (nodesWithin false p.2).Sublist (nodesWithin true entry.body) := by
  refine (nodesWithin_false_sublist p.2).trans ?_
  rcases List.mem_cons.mp hp with rfl | hp
  · exact List.Sublist.refl _
  · exact nodesWithin_sublist_of_mem_routinesAmong hp

end Within

section Building

variable {replay : Replay}

/-- A routine built in a fragment of its own. -/
def buildRoutine (replay : Replay) (header : RoutineHeader) (body : List Node) :
    Except Fault Routine := do
  let (statements, f) ← buildRegion replay body
    (Fragment.start header.codeName header.name header.argCount)
  let (statements, f) := f.finish statements
  return { name := header.name, isConstructor := header.isConstructor, body := ⟨statements, true⟩,
           fragment := f }

/-- A region is built by building its nodes and declaring what is pending. -/
theorem buildRegion_eq_ok {nodes : List Node} {f f' : Fragment} {ss : List Stmt}
    (hrun : buildRegion replay nodes f = .ok (ss, f')) :
    ∃ d, buildNodes replay nodes { fragment := f } = .ok ((), d) ∧ d.close = (ss, f') := by
  obtain ⟨⟨_, d⟩, hnodes, hclose⟩ := exists_of_bind_eq_ok hrun
  exact ⟨d, hnodes, Except.ok.inj hclose⟩

/-- A routine is built from the statements of its body. -/
theorem buildRoutine_eq_ok {header : RoutineHeader} {body : List Node} {r : Routine}
    (hrun : buildRoutine replay header body = .ok r) :
    ∃ ss f, buildRegion replay body
        (Fragment.start header.codeName header.name header.argCount) = .ok (ss, f) ∧
      r.body.statements = (f.finish ss).1 ∧ r.fragment = (f.finish ss).2 := by
  obtain ⟨⟨ss, f⟩, hregion, hrun⟩ := exists_of_bind_eq_ok hrun
  cases hrun
  exact ⟨ss, f, hregion, rfl, rfl⟩

/-- A routine that was built has no default values yet. -/
theorem defaults_buildRoutine {header : RoutineHeader} {body : List Node} {r : Routine}
    (hrun : buildRoutine replay header body = .ok r) : r.defaults = [] := by
  obtain ⟨⟨ss, f⟩, -, hrun⟩ := exists_of_bind_eq_ok hrun
  cases hrun
  rfl

/-- The tree of an entry is the body of a routine. -/
theorem Entry.build_eq_ok {dialect : Dialect} {entry : Entry} {block : Block} {f : Fragment}
    (hbuild : entry.build dialect = .ok (block, f)) :
    ∃ r, buildRoutine (Machine.step dialect) entry.header entry.body = .ok r ∧
      r.body.statements = block.statements ∧ r.fragment = f := by
  obtain ⟨⟨ss, g⟩, hregion, hrun⟩ := exists_of_bind_eq_ok hbuild
  cases hrun
  have hstart : buildRegion (Machine.step dialect) entry.body
      (Fragment.start entry.header.codeName entry.header.name entry.header.argCount) =
        .ok (ss, g) := hregion
  refine ⟨{ body := ⟨(g.finish ss).1, true⟩, fragment := (g.finish ss).2 }, ?_, rfl, rfl⟩
  simp only [buildRoutine, hstart, bind, Except.bind, pure_eq_ok]
  rfl

/-- A region inside a draft changes nothing of it but its fragment. -/
theorem region_eq_ok {nodes : List Node} {d d' : Draft} {ss : List Stmt}
    (hrun : Building.region (buildNodes replay nodes) d = .ok (ss, d')) :
    ∃ f', buildRegion replay nodes d.fragment = .ok (ss, f') ∧ d' = { d with fragment := f' } := by
  obtain ⟨⟨_, inner⟩, hinner, hrun⟩ := exists_of_bind_eq_ok hrun
  obtain ⟨rfl, rfl⟩ := Prod.mk.inj (Except.ok.inj hrun)
  refine ⟨inner.close.2, ?_, rfl⟩
  simp only [buildRegion, hinner, bind, Except.bind, pure_eq_ok]
  rfl

/-- An action on the fragment of a region changes nothing else of the region. -/
theorem onFragment_eq_ok {α : Type} {x : Action α} {d d' : Draft} {a : α}
    (hrun : Building.onFragment x d = .ok (a, d')) :
    ∃ f', x d.fragment = .ok (a, f') ∧ d' = { d with fragment := f' } := by
  obtain ⟨⟨_, f'⟩, hx, hrun⟩ := exists_of_bind_eq_ok hrun
  cases hrun
  exact ⟨f', hx, rfl⟩

/-- A nested routine is built on its own and declared. -/
theorem nested_eq_ok {header : RoutineHeader} {body : List Node} {d d' : Draft}
    (hrun : Building.nested header (buildNodes replay body) d = .ok ((), d')) :
    ∃ r, buildRoutine replay header body = .ok r ∧ d' = d.declare header r := by
  obtain ⟨⟨_, inner⟩, hinner, hrun⟩ := exists_of_bind_eq_ok hrun
  cases hrun
  refine ⟨_, ?_, rfl⟩
  simp only [buildRoutine, buildRegion, hinner, bind, Except.bind, pure_eq_ok]
  rfl

/-- What building the conditions of a chain comes to: the fragments before and after, the
conditions, and the statements that they give besides. -/
inductive ConditionsGive (replay : Replay) :
    List (List Node) → Fragment → List Expr → List Stmt → Fragment → Prop
  | nil {f : Fragment} : ConditionsGive replay [] f [] [] f
  | cons {nodes : List Node} {regions : List (List Node)} {f f₁ f₂ f' : Fragment}
      {ss rest : List Stmt} {condition : Expr} {conditions : List Expr} :
    buildRegion replay nodes f = .ok (ss, f₁) →
    Action.popCondition .chain f₁ = .ok (condition, f₂) →
    ConditionsGive replay regions f₂ conditions rest f' →
    ConditionsGive replay (nodes :: regions) f (condition :: conditions) (ss ++ rest) f'

/-- What building a node comes to, if it is neither straight code nor a routine: the fragments
before and after, and the statements that it gives. -/
inductive Node.Gives (replay : Replay) : Node → Fragment → List Stmt → Fragment → Prop
  | branch {thenPart : List Node} {f f₁ f' : Fragment} {condition : Expr} {ss : List Stmt} :
    Action.popCondition .branch f = .ok (condition, f₁) →
    buildRegion replay thenPart f₁ = .ok (ss, f') →
    Node.Gives replay (.branch thenPart none) f [.branch condition ⟨ss, true⟩ none] f'
  | branchElse {thenPart elsePart : List Node} {f f₁ f₂ f' : Fragment} {condition : Expr}
      {ss elses : List Stmt} :
    Action.popCondition .branch f = .ok (condition, f₁) →
    buildRegion replay thenPart f₁ = .ok (ss, f₂) →
    buildRegion replay elsePart f₂ = .ok (elses, f') →
    Node.Gives replay (.branch thenPart (some elsePart)) f
      [.branch condition ⟨ss, true⟩ (some ⟨elses, true⟩)] f'
  | chain {logic : Logic} {regions : List (List Node)} {f f₁ : Fragment} {ss : List Stmt}
      {conditions : List Expr} :
    ConditionsGive replay regions f conditions ss f₁ →
    Node.Gives replay (.chain logic regions) f ss
      (f₁.push (Expr.ofShape (.chain logic conditions)))
  | loop {conditionPart body : List Node} {f f₁ f₂ f₃ : Fragment} {condition : Expr}
      {before ss : List Stmt} :
    buildRegion replay conditionPart f = .ok (before, f₁) →
    Action.popCondition .loop f₁ = .ok (condition, f₂) →
    buildRegion replay body { f₂ with inLoop := true } = .ok (ss, f₃) →
    Node.Gives replay (.loop conditionPart body) f (before ++ [.loop condition ⟨ss, true⟩])
      { f₃ with inLoop := f₂.inLoop }
  | leave {f : Fragment} : f.inLoop = true → Node.Gives replay .leave f [.leave] f
  | again {f : Fragment} : f.inLoop = true → Node.Gives replay .again f [.again] f
  | guarded {body : List Node} {f f' : Fragment} {ss : List Stmt} :
    buildRegion replay body f = .ok (ss, f') →
    Node.Gives replay (.guarded body none) f [.guarded ⟨ss, true⟩ none] f'
  | guardedCleanup {body cleanupPart : List Node} {f f₁ f₂ : Fragment} {cleanup ss : List Stmt} :
    buildRegion replay cleanupPart f = .ok (cleanup, f₁) →
    buildRegion replay body (f₁.pushCleanup cleanup) = .ok (ss, f₂) →
    Node.Gives replay (.guarded body (some cleanupPart)) f
      [.guarded ⟨ss, true⟩ (some ⟨cleanup, true⟩)] f₂.popCleanup
  | statics {body : List Node} {f f' : Fragment} {ss : List Stmt} :
    buildRegion replay body f = .ok (ss, f') →
    Node.Gives replay (.statics body) f (ss.map Stmt.toStatic) f'

/-- All that building a node can do to a region. -/
inductive Node.Moves (replay : Replay) : Node → Draft → Draft → Prop
  | block {block : CodeBlock} {d : Draft} {m : Machine} :
    block.code.foldlM replay ⟨d.fragment, d.output⟩ = .ok m →
    Node.Moves replay (.block block) d { d with fragment := m.fragment, output := m.output }
  | gives {n : Node} {d : Draft} {ss : List Stmt} {f' : Fragment} :
    n.Gives replay d.fragment ss f' →
    Node.Moves replay n d { d with fragment := f', output := d.output ++ ss }
  | routine {header : RoutineHeader} {body : List Node} {d : Draft} {r : Routine} :
    buildRoutine replay header body = .ok r →
    Node.Moves replay (.routine header body) d (d.declare header r)

/-- Building the conditions of a chain appends the statements of all their regions. -/
theorem buildConditions_gives {regions : List (List Node)} {d d' : Draft} {es : List Expr}
    (hrun : buildConditions replay regions d = .ok (es, d')) :
    ∃ ss f', ConditionsGive replay regions d.fragment es ss f' ∧
      d' = { d with fragment := f', output := d.output ++ ss } := by
  induction regions generalizing d es with
  | nil =>
    cases hrun
    exact ⟨[], _, .nil, by simp⟩
  | cons nodes regions ih =>
    obtain ⟨⟨ss, d₁⟩, hfirst, hrun⟩ := exists_of_bind_eq_ok hrun
    obtain ⟨f₁, hregion, rfl⟩ := region_eq_ok hfirst
    obtain ⟨⟨condition, d₂⟩, htake, hrun⟩ := exists_of_bind_eq_ok hrun
    obtain ⟨f₂, hpop, rfl⟩ := onFragment_eq_ok htake
    obtain ⟨⟨conditions, d₃⟩, hothers, hrun⟩ := exists_of_bind_eq_ok hrun
    cases hrun
    obtain ⟨rest, f', hrest, rfl⟩ := ih hothers
    exact ⟨ss ++ rest, f', .cons hregion hpop hrest, by simp⟩

/-- A jump that is built is in a loop, and gives one statement. -/
theorem Building.jump_eq_ok {kind : LoopJump} {s : Stmt} {d d' : Draft}
    (hrun : Building.jump kind s d = .ok ((), d')) :
    d.fragment.inLoop = true ∧ d' = { d with output := d.output ++ [s] } := by
  simp only [Building.jump, bind, StateT.bind, get_apply, Except.bind] at hrun
  split at hrun
  · rename_i hloop
    cases hrun
    exact ⟨hloop, rfl⟩
  · cases hrun

/-- Building a node does one of the things that it can do. -/
theorem Node.build_moves {n : Node} {d d' : Draft} (hrun : n.build replay d = .ok ((), d')) :
    n.Moves replay d d' := by
  cases n with
  | block code =>
    obtain ⟨m, hfold, hrun⟩ := exists_of_bind_eq_ok hrun
    cases hrun
    exact .block hfold
  | branch thenPart elsePart =>
    obtain ⟨⟨condition, d₁⟩, htake, hrun⟩ := exists_of_bind_eq_ok hrun
    obtain ⟨f₁, hpop, rfl⟩ := onFragment_eq_ok htake
    obtain ⟨⟨ss, d₂⟩, hfirst, hrun⟩ := exists_of_bind_eq_ok hrun
    obtain ⟨f₂, hthen, rfl⟩ := region_eq_ok hfirst
    obtain ⟨⟨elses, d₃⟩, hsecond, hrun⟩ := exists_of_bind_eq_ok hrun
    cases hrun
    cases elsePart with
    | none =>
      cases hsecond
      exact .gives (.branch hpop hthen)
    | some elsePart =>
      obtain ⟨⟨elses, d₄⟩, hsecond, hrun⟩ := exists_of_bind_eq_ok hsecond
      cases hrun
      obtain ⟨f₃, helse, rfl⟩ := region_eq_ok hsecond
      exact .gives (.branchElse hpop hthen helse)
  | chain logic conditions =>
    obtain ⟨⟨es, d₁⟩, hconditions, hpush⟩ := exists_of_bind_eq_ok hrun
    obtain ⟨ss, f₁, hgive, rfl⟩ := buildConditions_gives hconditions
    cases hpush
    exact .gives (.chain hgive)
  | loop condition body =>
    obtain ⟨⟨before, d₁⟩, hfirst, hrun⟩ := exists_of_bind_eq_ok hrun
    obtain ⟨f₁, hcondition, rfl⟩ := region_eq_ok hfirst
    obtain ⟨⟨e, d₂⟩, htake, hrun⟩ := exists_of_bind_eq_ok hrun
    obtain ⟨f₂, hpop, rfl⟩ := onFragment_eq_ok htake
    obtain ⟨⟨ss, d₃⟩, hloop, hrun⟩ := exists_of_bind_eq_ok hrun
    cases hrun
    obtain ⟨⟨inner, d₄⟩, hsecond, hrun⟩ := exists_of_bind_eq_ok hloop
    cases hrun
    obtain ⟨f₃, hbody, rfl⟩ := region_eq_ok hsecond
    have hmoves := Moves.gives (d := d) (.loop hcondition hpop hbody)
    rw [← List.append_assoc] at hmoves
    exact hmoves
  | leave =>
    obtain ⟨hloop, rfl⟩ := Building.jump_eq_ok hrun
    exact .gives (.leave hloop)
  | again =>
    obtain ⟨hloop, rfl⟩ := Building.jump_eq_ok hrun
    exact .gives (.again hloop)
  | guarded body cleanup =>
    obtain ⟨⟨after, d₁⟩, hfirst, hrun⟩ := exists_of_bind_eq_ok hrun
    obtain ⟨⟨ss, d₂⟩, hsecond, hrun⟩ := exists_of_bind_eq_ok hrun
    cases hrun
    cases cleanup with
    | none =>
      cases hfirst
      obtain ⟨f', hbody, rfl⟩ := region_eq_ok hsecond
      exact .gives (.guarded hbody)
    | some cleanupPart =>
      obtain ⟨⟨statements, d₃⟩, hfirst, hrun⟩ := exists_of_bind_eq_ok hfirst
      cases hrun
      obtain ⟨f₁, hcleanup, rfl⟩ := region_eq_ok hfirst
      obtain ⟨⟨inner, d₄⟩, hinner, hrun⟩ := exists_of_bind_eq_ok hsecond
      cases hrun
      obtain ⟨f₂, hbody, rfl⟩ := region_eq_ok hinner
      exact .gives (.guardedCleanup hcleanup hbody)
  | statics body =>
    obtain ⟨⟨ss, d₁⟩, hfirst, hrun⟩ := exists_of_bind_eq_ok hrun
    cases hrun
    obtain ⟨f', hbody, rfl⟩ := region_eq_ok hfirst
    exact .gives (.statics hbody)
  | routine header body =>
    obtain ⟨r, hroutine, rfl⟩ := nested_eq_ok hrun
    exact .routine hroutine

/-- The nodes of a region are built one after another. -/
theorem buildNodes_cons_eq_ok {n : Node} {nodes : List Node} {d d' : Draft}
    (hrun : buildNodes replay (n :: nodes) d = .ok ((), d')) :
    ∃ middle, n.Moves replay d middle ∧ buildNodes replay nodes middle = .ok ((), d') := by
  obtain ⟨⟨_, middle⟩, hfirst, hrest⟩ := exists_of_bind_eq_ok hrun
  exact ⟨middle, Node.build_moves hfirst, hrest⟩

/-- Nodes in a row are built one part after the other. -/
theorem buildNodes_append_eq_ok {first second : List Node} {d d' : Draft}
    (hrun : buildNodes replay (first ++ second) d = .ok ((), d')) :
    ∃ middle, buildNodes replay first d = .ok ((), middle) ∧
      buildNodes replay second middle = .ok ((), d') := by
  induction first generalizing d with
  | nil => exact ⟨d, rfl, hrun⟩
  | cons n first ih =>
    obtain ⟨⟨_, after⟩, hn, hrest⟩ := exists_of_bind_eq_ok hrun
    obtain ⟨middle, hfirst, hsecond⟩ := ih hrest
    refine ⟨middle, ?_, hsecond⟩
    simp only [buildNodes, bind, StateT.bind, hn, Except.bind, hfirst]

end Building

section Reached

variable {replay : Replay}

/-- The region is built from some fragment. -/
def RegionBuilds (replay : Replay) (nodes : List Node) : Prop :=
  ∃ f ss f', buildRegion replay nodes f = .ok (ss, f')

/-- Every region of a chain that is built is built from some fragment. -/
theorem ConditionsGive.regionBuilds {regions : List (List Node)} {f f' : Fragment}
    {es : List Expr} {ss : List Stmt} (hgive : ConditionsGive replay regions f es ss f') :
    ∀ nodes ∈ regions, RegionBuilds replay nodes := by
  induction hgive with
  | nil => exact List.forall_mem_nil _
  | cons hregion _ _ ih => exact List.forall_mem_cons.mpr ⟨⟨_, _, _, hregion⟩, ih⟩

/-- A node is built only if the regions inside it are. -/
theorem Node.Moves.regionBuilds {n : Node} {d d' : Draft} (hmoves : n.Moves replay d d') :
    ∀ nodes ∈ n.regions true, RegionBuilds replay nodes := by
  cases hmoves with
  | block hfold => exact List.forall_mem_nil _
  | routine hroutine =>
    obtain ⟨ss, f, hregion, -⟩ := buildRoutine_eq_ok hroutine
    exact List.forall_mem_singleton.mpr ⟨_, _, _, hregion⟩
  | gives hgives =>
    cases hgives with
    | leave | again => exact List.forall_mem_nil _
    | branch _ hregion | guarded hregion | statics hregion =>
      exact List.forall_mem_singleton.mpr ⟨_, _, _, hregion⟩
    | chain hgive => exact hgive.regionBuilds
    | branchElse _ hfirst hsecond | guardedCleanup hfirst hsecond | loop hfirst _ hsecond =>
      exact List.forall_mem_cons.mpr ⟨⟨_, _, _, hfirst⟩,
        List.forall_mem_singleton.mpr ⟨_, _, _, hsecond⟩⟩

/-- Every node of a region that is built moves the region on from some state. -/
theorem exists_moves_of_mem {nodes : List Node} {d d' : Draft}
    (hrun : buildNodes replay nodes d = .ok ((), d')) :
    ∀ n ∈ nodes, ∃ before after, n.Moves replay before after := by
  induction nodes generalizing d with
  | nil => exact List.forall_mem_nil _
  | cons n nodes ih =>
    obtain ⟨middle, hmoves, hrest⟩ := buildNodes_cons_eq_ok hrun
    exact List.forall_mem_cons.mpr ⟨⟨d, middle, hmoves⟩, ih hrest⟩

/-- A region is built only if every node inside it is, at any depth. -/
theorem RegionBuilds.exists_moves {nodes : List Node} (hbuilds : RegionBuilds replay nodes) :
    ∀ n ∈ nodesWithin true nodes, ∃ before after, n.Moves replay before after := by
  induction nodes using regions_induction with
  | step nodes ih =>
    intro n hn
    obtain ⟨f, ss, f', hregion⟩ := hbuilds
    obtain ⟨d, hrun, -⟩ := buildRegion_eq_ok hregion
    rw [nodesWithin_eq] at hn
    obtain ⟨outer, houter, hn⟩ := List.mem_flatMap.mp hn
    obtain ⟨before, after, hmoves⟩ := exists_moves_of_mem hrun outer houter
    rw [Node.within_eq] at hn
    rcases List.mem_cons.mp hn with rfl | hn
    · exact ⟨before, after, hmoves⟩
    · obtain ⟨inner, hinner, hn⟩ := List.mem_flatMap.mp hn
      exact ih outer houter inner hinner (hmoves.regionBuilds inner hinner) n hn

/-- A fragment is built only if every region of it is. -/
theorem RegionBuilds.of_mem_regionsOf {body nodes : List Node} (hbuilds : RegionBuilds replay body)
    (hnodes : nodes ∈ regionsOf body) : RegionBuilds replay nodes := by
  rcases List.mem_cons.mp hnodes with rfl | hnodes
  · exact hbuilds
  · obtain ⟨n, hn, hnodes⟩ := List.mem_flatMap.mp hnodes
    have hdeep := (nodesWithin_false_sublist body).subset hn
    obtain ⟨before, after, hmoves⟩ := hbuilds.exists_moves n hdeep
    exact hmoves.regionBuilds nodes (n.regions_subset hnodes)

/-- An entry is built only if every fragment of it is. -/
theorem Entry.exists_buildRoutine {dialect : Dialect} {entry : Entry} {block : Block}
    {f : Fragment} (hbuild : entry.build dialect = .ok (block, f)) :
    ∀ p ∈ entry.fragments, ∃ r, buildRoutine (Machine.step dialect) p.1 p.2 = .ok r := by
  obtain ⟨root, hroot, -⟩ := entry.build_eq_ok hbuild
  obtain ⟨ss, g, hregion, -⟩ := buildRoutine_eq_ok hroot
  have hbuilds : RegionBuilds (Machine.step dialect) entry.body := ⟨_, ss, g, hregion⟩
  refine List.forall_mem_cons.mpr ⟨⟨root, hroot⟩, fun p hp => ?_⟩
  obtain ⟨n, hn, hroutine⟩ := List.mem_filterMap.mp hp
  obtain ⟨before, after, hmoves⟩ := hbuilds.exists_moves n hn
  cases hmoves with
  | routine hbuilt =>
    cases hroutine
    exact ⟨_, hbuilt⟩
  | block => cases hroutine
  | gives hgives => cases hgives <;> cases hroutine

end Reached

end GmlDecompiler

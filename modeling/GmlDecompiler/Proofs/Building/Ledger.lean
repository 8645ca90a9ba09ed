import GmlDecompiler.Proofs.Building.Declarations

/-!
# A ledger of routines

No routine is lost on the way from structured code to statements, and none is doubled. A routine
that is declared in a region is pending until the region is closed, and then it is declared by a
statement of the region. So at every moment the routines of one name are found in two places: in
the statements so far, and among those that are pending for the region. As long as no instruction
fetches the routine, together they are what was built from the nodes so far.
-/

namespace GmlDecompiler

/-- The routines of one name that are built from some nodes. -/
def builtNamed (dialect : Dialect) (name : String) (nodes : List Node) : List Routine :=
  ((routinesAmong nodes).filter (·.1.codeName = name)).filterMap fun (header, body) =>
    (buildRoutine (Machine.step dialect) header body).toOption

/-- At most one of the nodes declares a routine of the name, and no instruction fetches it. -/
structure Unclaimed (nodes : List Node) (name : String) : Prop where
  atMostOne : (declaredNames nodes).count name ≤ 1
  unfetched : ¬ Fetched nodes name

section Nodes

variable {dialect : Dialect} {name : String} {first second : List Node}

/-- The names that nodes in a row declare. -/
theorem declaredNames_append (first second : List Node) :
    declaredNames (first ++ second) = declaredNames first ++ declaredNames second := by
  simp [declaredNames, routinesAmong]

/-- The routines of a name that are built from nodes in a row. -/
theorem builtNamed_append (dialect : Dialect) (name : String) (first second : List Node) :
    builtNamed dialect name (first ++ second) =
      builtNamed dialect name first ++ builtNamed dialect name second := by
  simp [builtNamed, routinesAmong]

/-- A routine is fetched by nodes in a row exactly if it is fetched by one of the parts. -/
theorem fetched_append :
    Fetched (first ++ second) name ↔ Fetched first name ∨ Fetched second name := by
  simp only [Fetched, List.flatMap_append, List.mem_append, or_and_right, exists_or]

namespace Unclaimed

/-- A name that is unclaimed in nodes in a row is unclaimed in the first ones. -/
theorem left (h : Unclaimed (first ++ second) name) : Unclaimed first name := by
  have hcount := h.atMostOne
  rw [declaredNames_append, List.count_append] at hcount
  exact ⟨by omega, fun hfetched => h.unfetched (fetched_append.mpr (.inl hfetched))⟩

/-- A name that is unclaimed in nodes in a row is unclaimed in the last ones. -/
theorem right (h : Unclaimed (first ++ second) name) : Unclaimed second name := by
  have hcount := h.atMostOne
  rw [declaredNames_append, List.count_append] at hcount
  exact ⟨by omega, fun hfetched => h.unfetched (fetched_append.mpr (.inr hfetched))⟩

/-- A routine that is declared among the first nodes is not declared among the others. -/
theorem notMem_right (h : Unclaimed (first ++ second) name) (hfirst : name ∈ declaredNames first) :
    name ∉ declaredNames second := by
  intro hsecond
  have hcount := h.atMostOne
  rw [declaredNames_append, List.count_append] at hcount
  have hone := List.count_pos_iff.mpr hfirst
  have htwo := List.count_pos_iff.mpr hsecond
  omega

/-- A routine that nobody fetches is declared by no other node. -/
theorem notMem_others {header : RoutineHeader} {body : List Node}
    (h : Unclaimed (first ++ ([.routine header body] ++ second)) header.codeName) :
    header.codeName ∉ declaredNames first ∧ header.codeName ∉ declaredNames second := by
  have hname : header.codeName ∈ declaredNames [.routine header body] := List.mem_singleton_self _
  refine ⟨fun hfirst => h.notMem_right hfirst ?_, h.right.notMem_right hname⟩
  rw [declaredNames_append]
  exact List.mem_append_left _ hname

/-- If all names are different, a name that nobody fetches is unclaimed everywhere. -/
theorem of_sublist (hsub : first.Sublist second) (hdistinct : (declaredNames second).Nodup)
    (hunfetched : ¬ Fetched second name) : Unclaimed first name where
  atMostOne := by
    have hnodup : (declaredNames first).Nodup :=
      hdistinct.sublist ((hsub.filterMap _).map _)
    rw [hnodup.count]
    split <;> omega
  unfetched hfetched := by
    obtain ⟨i, hi, hfetches⟩ := hfetched
    obtain ⟨n, hn, hi⟩ := List.mem_flatMap.mp hi
    exact hunfetched ⟨i, List.mem_flatMap.mpr ⟨n, hsub.subset hn, hi⟩, hfetches⟩

end Unclaimed

/-- Nodes that do not declare a name build no routine of it. -/
theorem builtNamed_eq_nil {nodes : List Node} (hname : name ∉ declaredNames nodes) :
    builtNamed dialect name nodes = [] := by
  have hnone : (routinesAmong nodes).filter (·.1.codeName = name) = [] := by
    rw [List.filter_eq_nil_iff]
    intro p hp hsame
    exact hname (List.mem_map.mpr ⟨p, hp, of_decide_eq_true hsame⟩)
  rw [builtNamed, hnone, List.filterMap_nil]

/-- A routine that nobody fetches and that a node declares is the only one of its name. -/
theorem builtNamed_eq_singleton {nodes : List Node} {header : RoutineHeader} {body : List Node}
    {r : Routine} (hmem : .routine header body ∈ nodes)
    (hclaim : Unclaimed nodes header.codeName)
    (hroutine : buildRoutine (Machine.step dialect) header body = .ok r) :
    builtNamed dialect header.codeName nodes = [r] := by
  obtain ⟨before, after, rfl⟩ := List.append_of_mem hmem
  have hsplit : before ++ .routine header body :: after =
      before ++ ([.routine header body] ++ after) := rfl
  rw [hsplit] at hclaim ⊢
  obtain ⟨hbefore, hafter⟩ := hclaim.notMem_others
  rw [builtNamed_append, builtNamed_append, builtNamed_eq_nil hbefore, builtNamed_eq_nil hafter]
  simp [builtNamed, routinesAmong, Node.routine?, hroutine, Except.toOption]

end Nodes

/-- What building some nodes leaves of the fragment around them. -/
structure Fragment.Frame (nodes : List Node) (f f' : Fragment) : Prop where
  codeName : f'.codeName = f.codeName
  inLoop : f'.inLoop = f.inLoop
  cleanups : f'.cleanups = f.cleanups
  /-- What is pending afterwards was pending before. -/
  pending : ∀ name r, f'.pending.lookup name = some r → f.pending.lookup name = some r
  /-- What the nodes neither declare nor fetch is pending as before. -/
  kept : ∀ name, name ∉ declaredNames nodes → ¬ Fetched nodes name →
    f'.pending.lookup name = f.pending.lookup name

/-- What nodes in a row leave of the fragment: each part leaves what the other one does. -/
theorem Fragment.Frame.trans {first second : List Node} {f f₁ f' : Fragment}
    (hfirst : f.Frame first f₁) (hsecond : f₁.Frame second f') :
    f.Frame (first ++ second) f' where
  codeName := hsecond.codeName.trans hfirst.codeName
  inLoop := hsecond.inLoop.trans hfirst.inLoop
  cleanups := hsecond.cleanups.trans hfirst.cleanups
  pending name r hr := hfirst.pending name r (hsecond.pending name r hr)
  kept name hname hfetched := by
    rw [declaredNames_append, List.mem_append, not_or] at hname
    rw [fetched_append, not_or] at hfetched
    rw [hsecond.kept name hname.2 hfetched.2, hfirst.kept name hname.1 hfetched.1]

/-- What building some nodes does to the fragment around them, and the routines that are declared
by the statements it gives. -/
structure Fragment.Effect (dialect : Dialect) (nodes : List Node) (f : Fragment)
    (routines : List Routine) (f' : Fragment) : Prop extends f.Frame nodes f' where
  covered : ∀ r ∈ routines, r.fragment.codeName ∈ declaredNames nodes
  /-- What nobody fetches is declared. -/
  declared : ∀ name, Unclaimed nodes name →
    (name ∈ declaredNames nodes → f.CleanupsWithout name) →
    (named name routines).Perm (builtNamed dialect name nodes)

namespace Fragment.Effect

variable {dialect : Dialect} {first second nodes : List Node} {f f₁ f' : Fragment}
  {routines others : List Routine}

/-- Code that takes no routine has no effect that the ledger would show. -/
theorem of_takes (htakes : f.Takes (fun _ => False) f') : f.Effect dialect [] [] f' where
  codeName := htakes.codeName
  inLoop := htakes.inLoop
  cleanups := htakes.cleanups
  pending _ _ := htakes.lookup_of_lookup
  kept _ _ _ := htakes.lookup_eq not_false
  covered := List.forall_mem_nil _
  declared _ _ _ := .nil

/-- Code after other code declares its routines besides. There may be more cleanups pending around
it, if they do not declare its routines. -/
theorem join {g g' : Fragment} (hfirst : f.Effect dialect first routines f₁)
    (hsecond : g.Effect dialect second others g') (hframe : f₁.Frame second f')
    (hmore : ∀ name, Unclaimed (first ++ second) name → name ∈ declaredNames second →
      f₁.CleanupsWithout name → g.CleanupsWithout name) :
    f.Effect dialect (first ++ second) (routines ++ others) f' where
  toFrame := hfirst.toFrame.trans hframe
  covered r hr := by
    rw [declaredNames_append, List.mem_append]
    exact (List.mem_append.mp hr).imp (hfirst.covered r) (hsecond.covered r)
  declared name hclaim hcleanups := by
    rw [declaredNames_append, List.mem_append] at hcleanups
    rw [named_append, builtNamed_append]
    refine (hfirst.declared name hclaim.left fun h => hcleanups (.inl h)).append
      (hsecond.declared name hclaim.right fun h => hmore name hclaim h ?_)
    unfold CleanupsWithout
    rw [hfirst.cleanups]
    exact hcleanups (.inr h)

/-- Nodes in a row: what the first ones declare comes before what the second ones declare. -/
theorem trans (hfirst : f.Effect dialect first routines f₁)
    (hsecond : f₁.Effect dialect second others f') :
    f.Effect dialect (first ++ second) (routines ++ others) f' :=
  hfirst.join hsecond hsecond.toFrame fun _ _ _ hcleanups => hcleanups

/-- The routines of an effect may be listed in any order, since the ledger only counts them. -/
theorem of_perm (heffect : f.Effect dialect nodes routines f') (hperm : routines.Perm others) :
    f.Effect dialect nodes others f' :=
  { heffect with
    covered := fun r hr => heffect.covered r (hperm.mem_iff.mpr hr)
    declared := fun name hclaim hcleanups =>
      ((hperm.filter _).symm.trans (heffect.declared name hclaim hcleanups)) }

/-- A node that is neither straight code nor a routine does only what its regions do. -/
theorem of_regions {n : Node} (hroutine : n.routine? = none) (hcode : n.code = [])
    (heffect : f.Effect dialect ((n.regions false).flatMap (nodesWithin false)) routines f') :
    f.Effect dialect (n.within false) routines f' := by
  rw [Node.within_eq]
  generalize (n.regions false).flatMap (nodesWithin false) = nodes at heffect ⊢
  have hamong : routinesAmong (n :: nodes) = routinesAmong nodes :=
    List.filterMap_cons_none hroutine
  have hnames : declaredNames (n :: nodes) = declaredNames nodes := by
    rw [declaredNames, declaredNames, hamong]
  have hbuilt (name : String) :
      builtNamed dialect name (n :: nodes) = builtNamed dialect name nodes := by
    rw [builtNamed, builtNamed, hamong]
  have hfetched (name : String) : Fetched (n :: nodes) name ↔ Fetched nodes name := by
    simp [Fetched, hcode]
  refine { heffect with kept := ?_, covered := hnames ▸ heffect.covered, declared := ?_ }
  · intro name hname hfetch
    exact heffect.kept name (hnames ▸ hname) ((hfetched name).not.mp hfetch)
  · intro name hclaim hcleanups
    rw [hbuilt]
    refine heffect.declared name ⟨hnames ▸ hclaim.atMostOne, ?_⟩ (hnames ▸ hcleanups)
    exact (hfetched name).not.mp hclaim.unfetched

/-- After the body of a loop, the code is in the loop that it was in before. -/
theorem leaveLoop (heffect : Effect dialect nodes { f with inLoop := true } routines f') :
    f.Effect dialect nodes routines { f' with inLoop := f.inLoop } :=
  { heffect with inLoop := rfl }

/-- The code that a cleanup is pending around declares its own routines and those of the
cleanup. -/
theorem guardedBy {cleanup : List Stmt}
    (hcleanup : f.Effect dialect first (declarations cleanup) f₁)
    (hbody : (f₁.pushCleanup cleanup).Effect dialect second others f') :
    f.Effect dialect (first ++ second) (others ++ declarations cleanup) f'.popCleanup := by
  have hframe : f₁.Frame second f'.popCleanup :=
    { hbody.toFrame with cleanups := by simp [popCleanup, hbody.cleanups, pushCleanup] }
  refine (hcleanup.join hbody hframe ?_).of_perm List.perm_append_comm
  -- the new cleanup cannot declare a routine of the body, or the name would be declared twice
  intro name hclaim hsecond hcleanups
  refine List.forall_mem_cons.mpr ⟨?_, hcleanups⟩
  rw [named_eq_nil_iff]
  intro hname
  obtain ⟨r, hr, rfl⟩ := List.mem_map.mp hname
  exact hclaim.notMem_right (hcleanup.covered r hr) hsecond

end Fragment.Effect

namespace Draft

/-- The names of the routines that are declared in the region so far. -/
def names (d : Draft) : List String :=
  d.declared.map (·.2)

/-- The routines of one name that the region has: declared by its statements, or pending for
it. -/
def held (d : Draft) (name : String) : List Routine :=
  named name (declarations d.output) ++
    if name ∈ d.names then (d.fragment.pending.lookup name).toList else []

/-- A routine that is pending for the region is pending under the name of its code. -/
def Tagged (d : Draft) : Prop :=
  ∀ name ∈ d.names, ∀ r, d.fragment.pending.lookup name = some r → r.fragment.codeName = name

/-- Fewer routines that are pending are pending under the names of their code too. -/
theorem Tagged.mono {d d' : Draft} (htagged : d.Tagged) (hnames : d'.names ⊆ d.names)
    (hpending : ∀ name r, d'.fragment.pending.lookup name = some r →
      d.fragment.pending.lookup name = some r) : d'.Tagged :=
  fun name hname r hr => htagged name (hnames hname) r (hpending name r hr)

section Declare

variable {header : RoutineHeader}

/-- Declaring a routine adds no cleanup. -/
theorem cleanups_declare (d : Draft) (r : Routine) :
    (d.declare header r).fragment.cleanups = d.fragment.cleanups := by
  unfold Draft.declare
  cases header.name <;> rfl

/-- The declared routine is pending under its name, and the others are as before. -/
theorem lookup_declare (d : Draft) (r : Routine) (name : String) :
    (d.declare header r).fragment.pending.lookup name =
      if name = header.codeName then some r else d.fragment.pending.lookup name := by
  unfold Draft.declare
  cases header.name <;> exact Fragment.lookup_putPending _ _ _ _

/-- The declared name comes first, as the last one that was declared. -/
theorem names_declare (d : Draft) (r : Routine) :
    (d.declare header r).names = header.codeName :: d.names := rfl

/-- A region has the routines that it had, and the one that is declared. -/
theorem held_declare (d : Draft) (r : Routine) {name : String}
    (hfresh : name = header.codeName → name ∉ d.names) :
    (d.declare header r).held name =
      d.held name ++ if name = header.codeName then [r] else [] := by
  have houtput : (d.declare header r).output = d.output := rfl
  rw [Draft.held, Draft.held, names_declare, houtput, lookup_declare]
  by_cases hsame : name = header.codeName
  · simp [hfresh hsame, ← hsame]
  · simp [hsame]

end Declare

/-- What building some nodes does to the region that they are in. -/
structure Advances (dialect : Dialect) (nodes : List Node) (d d' : Draft) : Prop where
  codeName : d'.fragment.codeName = d.fragment.codeName
  inLoop : d'.fragment.inLoop = d.fragment.inLoop
  cleanups : d'.fragment.cleanups = d.fragment.cleanups
  pending : ∀ name r, name ∉ d'.names →
    d'.fragment.pending.lookup name = some r → d.fragment.pending.lookup name = some r
  kept : ∀ name, name ∉ declaredNames nodes → ¬ Fetched nodes name →
    d'.fragment.pending.lookup name = d.fragment.pending.lookup name
  /-- The routines that are declared are added to the earlier ones. While no cleanup is pending,
  their positions are among the new statements. -/
  declares : ∃ new, d'.declared = new ++ d.declared ∧
    (∀ p ∈ new, p.2 ∈ declaredNames nodes) ∧
    (d.fragment.cleanups = [] → ∀ p ∈ new, d.output.length ≤ p.1 ∧ p.1 ≤ d'.output.length)
  tagged : d.Tagged → d'.Tagged
  covered : ∀ r ∈ declarations d'.output,
    r ∈ declarations d.output ∨ r.fragment.codeName ∈ declaredNames nodes
  held : ∀ name, Unclaimed nodes name → (name ∈ declaredNames nodes → name ∉ d.names) →
    (name ∈ declaredNames nodes ∨ name ∈ codeNames (declarations d.output) →
      d.fragment.CleanupsWithout name) →
    (d'.held name).Perm (d.held name ++ builtNamed dialect name nodes)
  /-- Only while a cleanup is pending, statements are dropped. -/
  appends : d.fragment.cleanups = [] → ∃ new, d'.output = d.output ++ new ∧
    ∀ r ∈ declarations new, r.fragment.codeName ∈ declaredNames nodes

namespace Advances

variable {dialect : Dialect} {first second nodes : List Node} {d d' d'' : Draft}

/-- A region without nodes stays as it is. -/
theorem refl (dialect : Dialect) (d : Draft) : d.Advances dialect [] d where
  codeName := rfl
  inLoop := rfl
  cleanups := rfl
  pending _ _ _ h := h
  kept _ _ _ := rfl
  declares := ⟨[], rfl, List.forall_mem_nil _, fun _ => List.forall_mem_nil _⟩
  tagged h := h
  covered _ h := .inl h
  held name _ _ _ := by
    rw [builtNamed, routinesAmong, List.filterMap_nil, List.filter_nil, List.filterMap_nil,
      List.append_nil]
  appends _ := ⟨[], (List.append_nil _).symm, List.forall_mem_nil _⟩

/-- The names declared afterwards are those declared before and those of the nodes. -/
theorem mem_names (hadvances : d.Advances dialect nodes d') {name : String}
    (hname : name ∈ d'.names) : name ∈ declaredNames nodes ∨ name ∈ d.names := by
  obtain ⟨new, hdeclared, hnew, -⟩ := hadvances.declares
  rw [names, hdeclared, List.map_append, List.mem_append] at hname
  refine hname.imp_left fun hnew' => ?_
  obtain ⟨p, hp, rfl⟩ := List.mem_map.mp hnew'
  exact hnew p hp

/-- No name that was declared in a region is forgotten. -/
theorem names_subset (hadvances : d.Advances dialect nodes d') : d.names ⊆ d'.names := by
  obtain ⟨new, hdeclared, -, -⟩ := hadvances.declares
  intro name hname
  rw [names, hdeclared, List.map_append]
  exact List.mem_append_right _ hname

/-- Nodes in a row advance the region one after another. -/
theorem trans (hfirst : d.Advances dialect first d') (hsecond : d'.Advances dialect second d'') :
    d.Advances dialect (first ++ second) d'' where
  codeName := hsecond.codeName.trans hfirst.codeName
  inLoop := hsecond.inLoop.trans hfirst.inLoop
  cleanups := hsecond.cleanups.trans hfirst.cleanups
  pending name r hname hr := by
    have hearlier : name ∉ d'.names := fun h => hname (hsecond.names_subset h)
    exact hfirst.pending name r hearlier (hsecond.pending name r hname hr)
  kept name hname hfetched := by
    rw [declaredNames_append, List.mem_append, not_or] at hname
    rw [fetched_append, not_or] at hfetched
    rw [hsecond.kept name hname.2 hfetched.2, hfirst.kept name hname.1 hfetched.1]
  declares := by
    obtain ⟨new, hdeclared, hnew, hplaces⟩ := hfirst.declares
    obtain ⟨newer, hdeclared', hnewer, hplaces'⟩ := hsecond.declares
    refine ⟨newer ++ new, by rw [hdeclared', hdeclared, List.append_assoc], ?_, ?_⟩
    · rw [declaredNames_append]
      refine List.forall_mem_append.mpr ⟨fun p hp => ?_, fun p hp => ?_⟩
      · exact List.mem_append_right _ (hnewer p hp)
      · exact List.mem_append_left _ (hnew p hp)
    · intro hnone
      have hnone' := hfirst.cleanups.trans hnone
      obtain ⟨added, houtput, -⟩ := hfirst.appends hnone
      obtain ⟨added', houtput', -⟩ := hsecond.appends hnone'
      have hgrows : d'.output.length = d.output.length + added.length := by
        rw [houtput, List.length_append]
      have hgrows' : d''.output.length = d'.output.length + added'.length := by
        rw [houtput', List.length_append]
      refine List.forall_mem_append.mpr ⟨fun p hp => ?_, fun p hp => ?_⟩
      · have hplace := hplaces' hnone' p hp
        omega
      · have hplace := hplaces hnone p hp
        omega
  tagged h := hsecond.tagged (hfirst.tagged h)
  covered r hr := by
    rw [declaredNames_append, List.mem_append]
    rcases hsecond.covered r hr with hr | hname
    · exact (hfirst.covered r hr).imp_right .inl
    · exact .inr (.inr hname)
  held name hclaim hfresh hcleanups := by
    rw [declaredNames_append, List.mem_append] at hfresh hcleanups
    have hone := hfirst.held name hclaim.left (fun h => hfresh (.inl h))
      fun h => hcleanups (h.imp_left .inl)
    have htwo : (d''.held name).Perm (d'.held name ++ builtNamed dialect name second) := by
      -- the later nodes find the name free, and no pending cleanup declares it
      refine hsecond.held name hclaim.right (fun hname hdeclared => ?_) fun h => ?_
      · rcases hfirst.mem_names hdeclared with hearlier | hearlier
        · exact hclaim.notMem_right hearlier hname
        · exact hfresh (.inr hname) hearlier
      · unfold Fragment.CleanupsWithout
        rw [hfirst.cleanups]
        rcases h with hname | hname
        · exact hcleanups (.inl (.inr hname))
        · obtain ⟨r, hr, rfl⟩ := List.mem_map.mp hname
          rcases hfirst.covered r hr with hr | hname
          · exact hcleanups (.inr (List.mem_map_of_mem hr))
          · exact hcleanups (.inl (.inl hname))
    rw [builtNamed_append, ← List.append_assoc]
    exact htwo.trans (hone.append_right _)
  appends hnone := by
    obtain ⟨added, houtput, hadded⟩ := hfirst.appends hnone
    obtain ⟨added', houtput', hadded'⟩ := hsecond.appends (hfirst.cleanups.trans hnone)
    refine ⟨added ++ added', by rw [houtput', houtput, List.append_assoc], fun r hr => ?_⟩
    rw [declarations_append] at hr
    rw [declaredNames_append, List.mem_append]
    exact (List.mem_append.mp hr).imp (hadded r) (hadded' r)

/-- Straight code declares nothing. -/
theorem of_replays {block : CodeBlock} {m : Machine}
    (hreplays : Machine.Replays block.code ⟨d.fragment, d.output⟩ m) :
    d.Advances dialect [.block block] { d with fragment := m.fragment, output := m.output } := by
  have htakes := hreplays.takes
  have hfetched (name : String) :
      Fetched [.block block] name ↔ ∃ i ∈ block.code, i.Fetches name := by
    simp [Fetched, Node.code]
  refine
    { codeName := htakes.codeName
      inLoop := htakes.inLoop
      cleanups := htakes.cleanups
      pending := fun name r _ hr => htakes.lookup_of_lookup hr
      kept := fun name _ hfetch => htakes.lookup_eq ((hfetched name).not.mp hfetch)
      declares := ⟨[], rfl, List.forall_mem_nil _, fun _ => List.forall_mem_nil _⟩
      tagged := fun htagged => htagged.mono (List.Subset.refl _) fun _ _ hr =>
        htakes.lookup_of_lookup hr
      covered := fun r hr => .inl (hreplays.fewer.subset hr)
      held := ?_
      appends := ?_ }
  · intro name hclaim _ hcleanups
    have hlookup : m.fragment.pending.lookup name = d.fragment.pending.lookup name :=
      htakes.lookup_eq ((hfetched name).not.mp hclaim.unfetched)
    -- statements are dropped only with a copy of a cleanup, which does not declare the routine
    have hnamed : named name (declarations m.output) = named name (declarations d.output) := by
      by_cases hname : name ∈ codeNames (declarations d.output)
      · exact hreplays.kept name (hcleanups (.inr hname))
      · have hnone := named_eq_nil_iff.mpr hname
        rw [hnone, named_eq_nil_of_subset hreplays.fewer.subset hnone]
    have hbuilt : builtNamed dialect name [.block block] = [] := rfl
    simp only [Draft.held, Draft.names, hlookup, hnamed, hbuilt, List.append_nil]
    exact .refl _
  · intro hnone
    obtain ⟨new, houtput, hnew⟩ := hreplays.appends hnone
    exact ⟨new, houtput, by simp [hnew]⟩

/-- Statements that are appended after their regions have been built declare what these do. -/
theorem of_effect {ss : List Stmt} {f' : Fragment}
    (heffect : d.fragment.Effect dialect nodes (declarations ss) f') :
    d.Advances dialect nodes { d with fragment := f', output := d.output ++ ss } := by
  refine
    { codeName := heffect.codeName
      inLoop := heffect.inLoop
      cleanups := heffect.cleanups
      pending := fun name r _ hr => heffect.pending name r hr
      kept := heffect.kept
      declares := ⟨[], rfl, List.forall_mem_nil _, fun _ => List.forall_mem_nil _⟩
      tagged := fun htagged => htagged.mono (List.Subset.refl _) heffect.pending
      covered := ?_
      held := ?_
      appends := fun _ => ⟨ss, rfl, heffect.covered⟩ }
  · intro r hr
    rw [declarations_append] at hr
    exact (List.mem_append.mp hr).imp_right (heffect.covered r)
  · intro name hclaim hfresh hcleanups
    have hss := heffect.declared name hclaim fun h => hcleanups (.inl h)
    have hpending : (if name ∈ d.names then (f'.pending.lookup name).toList else []) =
        if name ∈ d.names then (d.fragment.pending.lookup name).toList else [] := by
      split
      · rename_i hname
        rw [heffect.kept name (fun h => hfresh h hname) hclaim.unfetched]
      · rfl
    have hnames : Draft.names { d with fragment := f', output := d.output ++ ss } = d.names := rfl
    simp only [Draft.held, hnames, hpending, declarations_append, named_append, List.append_assoc]
    refine List.Perm.append_left _ ?_
    exact List.perm_append_comm.trans (hss.append_left _)

/-- A routine that is declared is pending for the region. -/
theorem of_declare {header : RoutineHeader} {body : List Node} {r : Routine}
    (hroutine : buildRoutine (Machine.step dialect) header body = .ok r)
    (hname : r.fragment.codeName = header.codeName) :
    d.Advances dialect [.routine header body] (d.declare header r) := by
  have hdeclared : declaredNames [.routine header body] = [header.codeName] := rfl
  refine
    { codeName := ?_
      inLoop := ?_
      cleanups := d.cleanups_declare r
      pending := ?_
      kept := ?_
      declares := ⟨[(d.output.length, header.codeName)], rfl, ?_, fun _ => ?_⟩
      tagged := ?_
      covered := fun _ hr => .inl hr
      held := ?_
      appends := fun _ => ⟨[], (List.append_nil _).symm, List.forall_mem_nil _⟩ }
  · unfold Draft.declare
    cases header.name <;> rfl
  · unfold Draft.declare
    cases header.name <;> rfl
  · intro name s hname hs
    rw [names_declare, List.mem_cons, not_or] at hname
    rwa [lookup_declare, if_neg hname.1] at hs
  · intro name hname _
    rw [hdeclared, List.mem_singleton] at hname
    rw [lookup_declare, if_neg hname]
  · exact List.forall_mem_singleton.mpr (List.mem_singleton_self _)
  · exact List.forall_mem_singleton.mpr ⟨Nat.le_refl _, Nat.le_refl _⟩
  · intro htagged name hmem s hs
    rw [lookup_declare] at hs
    split at hs
    · rename_i hsame
      cases hs
      rw [hname, hsame]
    · rename_i hother
      rw [names_declare] at hmem
      exact htagged name (List.mem_of_ne_of_mem hother hmem) s hs
  · intro name _ hfresh _
    rw [hdeclared, List.mem_singleton] at hfresh
    have hbuilt : builtNamed dialect name [.routine header body] =
        if name = header.codeName then [r] else [] := by
      split
      · rename_i hsame
        simp [builtNamed, routinesAmong, Node.routine?, hsame, hroutine, Except.toOption]
      · rename_i hother
        exact builtNamed_eq_nil (by rwa [hdeclared, List.mem_singleton])
    rw [hbuilt, held_declare d r hfresh]

end Advances

section Close

/-- Closing a region takes the routine that was declared last, if it is pending. -/
theorem settle_takes (ss : List Stmt) (f : Fragment) (position : Nat) (name : String) :
    f.Takes (· = name) (settle (ss, f) (position, name)).2 ∧
      (settle (ss, f) (position, name)).2.pending.lookup name = none := by
  unfold settle
  dsimp only
  split
  · rename_i r f' htake
    refine ⟨Fragment.takes_takePending htake, ?_⟩
    obtain ⟨-, rfl⟩ := Fragment.takePending_eq_some htake
    exact (Fragment.lookup_filter_ne _ _ _).trans (if_pos rfl)
  · rename_i htake
    exact ⟨.refl _ f, Fragment.takePending_eq_none htake⟩

/-- Closing a region declares the routine that was declared last, if it is pending. -/
theorem declarations_settle (ss : List Stmt) (f : Fragment) (position : Nat) (name : String) :
    (declarations (settle (ss, f) (position, name)).1).Perm
      ((f.pending.lookup name).toList ++ declarations ss) := by
  unfold settle
  dsimp only
  split
  · rename_i r f' htake
    obtain ⟨hlookup, -⟩ := Fragment.takePending_eq_some htake
    rw [hlookup]
    exact declarations_insertIdx ss _ (Nat.min_le_right _ _) r
  · rename_i htake
    rw [Fragment.takePending_eq_none htake]
    exact .refl _

/-- A region is closed from the last declaration to the first. -/
theorem close_cons (f : Fragment) (ss : List Stmt) (first : Nat × String)
    (rest : List (Nat × String)) :
    close ⟨f, ss, first :: rest⟩ =
      close ⟨(settle (ss, f) first).2, (settle (ss, f) first).1, rest⟩ := rfl

/-- Closing a region takes all routines that are pending for it, and no other. -/
theorem close_takes (d : Draft) :
    d.fragment.Takes (· ∈ d.names) d.close.2 ∧
      ∀ name ∈ d.names, d.close.2.pending.lookup name = none := by
  obtain ⟨f, ss, declared⟩ := d
  induction declared generalizing f ss with
  | nil => exact ⟨.refl _ f, List.forall_mem_nil _⟩
  | cons first rest ih =>
    obtain ⟨position, name⟩ := first
    rw [close_cons]
    obtain ⟨htakes, hnone⟩ := settle_takes ss f position name
    obtain ⟨hrest, hnones⟩ := ih (settle (ss, f) (position, name)).2
      (settle (ss, f) (position, name)).1
    refine ⟨?_, List.forall_mem_cons.mpr ⟨hrest.lookup_eq_none hnone, hnones⟩⟩
    refine (htakes.mono fun k hk => ?_).trans (hrest.mono fun k hk => ?_)
    · rw [hk]
      exact List.mem_cons_self
    · exact List.mem_cons_of_mem _ hk

/-- Declaring the routine that was declared last does not change what the region has. -/
theorem held_settle {f : Fragment} {ss : List Stmt} {position : Nat} {last : String}
    {rest : List (Nat × String)} (htagged : Tagged ⟨f, ss, (position, last) :: rest⟩)
    (name : String) :
    (held ⟨(settle (ss, f) (position, last)).2, (settle (ss, f) (position, last)).1, rest⟩
      name).Perm (held ⟨f, ss, (position, last) :: rest⟩ name) := by
  obtain ⟨htakes, hnone⟩ := settle_takes ss f position last
  have hdeclared : (named name (declarations (settle (ss, f) (position, last)).1)).Perm
      (named name (f.pending.lookup last).toList ++ named name (declarations ss)) := by
    rw [← named_append]
    exact (declarations_settle ss f position last).filter _
  have hlast : named name (f.pending.lookup last).toList =
      if name = last then (f.pending.lookup last).toList else [] := by
    cases hlookup : f.pending.lookup last with
    | none => exact (ite_self _).symm
    | some r =>
      have hr : r.fragment.codeName = last := htagged last List.mem_cons_self r hlookup
      by_cases hname : name = last
      · simp [named, hr, hname]
      · simp [named, hr, hname, Ne.symm hname]
  rw [hlast] at hdeclared
  unfold held
  by_cases hname : name = last
  · subst hname
    have hmem : name ∈ names ⟨f, ss, (position, name) :: rest⟩ := List.mem_cons_self
    rw [if_pos rfl] at hdeclared
    simp only [hnone, Option.toList_none, ite_self, List.append_nil, if_pos hmem]
    exact hdeclared.trans List.perm_append_comm
  · have hmem : name ∈ names ⟨f, ss, (position, last) :: rest⟩ ↔ name ∈ rest.map (·.2) := by
      simp [names, hname]
    rw [if_neg hname, List.nil_append] at hdeclared
    simp only [hmem, htakes.lookup_eq hname]
    exact hdeclared.append_right _

/-- Settling one declaration keeps the pending routines under the names of their code. -/
theorem tagged_settle {f : Fragment} {ss : List Stmt} {position : Nat} {last : String}
    {rest : List (Nat × String)} (htagged : Tagged ⟨f, ss, (position, last) :: rest⟩) :
    Tagged ⟨(settle (ss, f) (position, last)).2, (settle (ss, f) (position, last)).1, rest⟩ :=
  htagged.mono (List.subset_cons_self _ _) fun _ _ hr =>
    (settle_takes ss f position last).1.lookup_of_lookup hr

/-- The statements of a region that is closed declare all that the region has. -/
theorem named_close {d : Draft} (htagged : d.Tagged) (name : String) :
    (named name (declarations d.close.1)).Perm (d.held name) := by
  obtain ⟨f, ss, declared⟩ := d
  induction declared generalizing f ss with
  | nil =>
    have hheld : held ⟨f, ss, []⟩ name = named name (declarations ss) := List.append_nil _
    rw [hheld]
    exact .refl _
  | cons first rest ih =>
    rw [close_cons]
    exact (ih _ _ (tagged_settle htagged)).trans (held_settle htagged name)

/-- The statements of a region that is closed declare no routine but those that its statements
declared before and those that were declared in it. -/
theorem codeNames_close {d : Draft} (htagged : d.Tagged) :
    codeNames (declarations d.close.1) ⊆ codeNames (declarations d.output) ++ d.names := by
  intro name hname
  obtain ⟨r, hr, rfl⟩ := List.mem_map.mp hname
  have hheld : r ∈ d.held r.fragment.codeName :=
    (named_close htagged _).mem_iff.mp (mem_named.mpr ⟨hr, rfl⟩)
  rw [held, List.mem_append] at hheld
  rcases hheld with hr | hr
  · exact List.mem_append_left _ (List.mem_map_of_mem (mem_named.mp hr).1)
  · split at hr
    · exact List.mem_append_right _ ‹_›
    · cases hr

/-- What building the nodes of a region and closing it does. -/
theorem Advances.close {dialect : Dialect} {nodes : List Node} {f : Fragment} {d : Draft}
    (hadvances : Advances dialect nodes { fragment := f } d) :
    f.Effect dialect nodes (declarations d.close.1) d.close.2 := by
  obtain ⟨htakes, hnone⟩ := close_takes d
  have htagged : d.Tagged := hadvances.tagged fun _ h => nomatch h
  have hnames {name : String} (hname : name ∈ d.names) : name ∈ declaredNames nodes :=
    (hadvances.mem_names hname).resolve_right (List.not_mem_nil)
  refine
    { codeName := htakes.codeName.trans hadvances.codeName
      inLoop := htakes.inLoop.trans hadvances.inLoop
      cleanups := htakes.cleanups.trans hadvances.cleanups
      pending := ?_
      kept := ?_
      covered := ?_
      declared := ?_ }
  · intro name r hr
    refine hadvances.pending name r (fun hname => ?_) (htakes.lookup_of_lookup hr)
    rw [hnone name hname] at hr
    cases hr
  · intro name hname hfetched
    rw [htakes.lookup_eq fun h => hname (hnames h), hadvances.kept name hname hfetched]
  · intro r hr
    rcases List.mem_append.mp (codeNames_close htagged (List.mem_map_of_mem hr)) with hname | hname
    · obtain ⟨s, hs, hsame⟩ := List.mem_map.mp hname
      rw [← hsame]
      exact (hadvances.covered s hs).resolve_left List.not_mem_nil
    · exact hnames hname
  · intro name hclaim hcleanups
    refine (named_close htagged name).trans ?_
    refine hadvances.held name hclaim (fun _ => List.not_mem_nil) fun h => hcleanups ?_
    exact h.resolve_right (List.not_mem_nil)

end Close

end Draft

section Regions

variable {dialect : Dialect}

/-- The region has an effect on any fragment that it is built from. -/
def RegionEffect (dialect : Dialect) (nodes : List Node) : Prop :=
  ∀ f ss f', buildRegion (Machine.step dialect) nodes f = .ok (ss, f') →
    f.Effect dialect (nodesWithin false nodes) (declarations ss) f'

/-- Popping a condition has no effect on the ledger. -/
theorem popCondition_effect {construct : Construct} {f f' : Fragment} {e : Expr}
    (hpop : Action.popCondition construct f = .ok (e, f')) : f.Effect dialect [] [] f' :=
  .of_takes (Action.popCondition_takesOnly construct f e f' hpop)

/-- The conditions of a chain have the effects of their regions, one after another. The induction
follows the regions. -/
theorem ConditionsGive.effect {regions : List (List Node)} {f f' : Fragment} {es : List Expr}
    {ss : List Stmt} (hgive : ConditionsGive (Machine.step dialect) regions f es ss f')
    (ih : ∀ nodes ∈ regions, RegionEffect dialect nodes) :
    f.Effect dialect (regionsWithin false regions) (declarations ss) f' := by
  induction hgive with
  | nil => exact .of_takes (.refl _ _)
  | cons hregion hpop _ hrest =>
    rw [regionsWithin, declarations_append]
    obtain ⟨hnodes, hregions⟩ := List.forall_mem_cons.mp ih
    exact (hnodes _ _ _ hregion).trans ((popCondition_effect hpop).trans (hrest hregions))

/-- What a node gives declares what its regions declare. -/
theorem Node.Gives.effect {n : Node} {f f' : Fragment} {ss : List Stmt}
    (hgives : n.Gives (Machine.step dialect) f ss f')
    (ih : ∀ nodes ∈ n.regions true, RegionEffect dialect nodes) :
    f.Effect dialect (n.within false) (declarations ss) f' := by
  cases hgives with
  | branch hpop hthen =>
    refine .of_regions rfl rfl ?_
    have heffect := (popCondition_effect hpop).trans (ih _ List.mem_cons_self _ _ _ hthen)
    simpa [regions, declarations, Stmt.declarations, Block.declarations, optionalDeclarations]
      using heffect
  | branchElse hpop hthen helse =>
    refine .of_regions rfl rfl ?_
    have hfirst := (popCondition_effect hpop).trans (ih _ List.mem_cons_self _ _ _ hthen)
    have heffect := hfirst.trans (ih _ (List.mem_cons_of_mem _ List.mem_cons_self) _ _ _ helse)
    simpa [regions, declarations, Stmt.declarations, Block.declarations, optionalDeclarations]
      using heffect
  | chain hgive =>
    refine .of_regions rfl rfl ?_
    have heffect := hgive.effect ih
    rw [regionsWithin_eq] at heffect
    exact { heffect with }
  | loop hcondition hpop hbody =>
    refine .of_regions rfl rfl ?_
    have hfirst := (ih _ List.mem_cons_self _ _ _ hcondition).trans (popCondition_effect hpop)
    have hsecond := ih _ (List.mem_cons_of_mem _ List.mem_cons_self) _ _ _ hbody
    have heffect := hfirst.trans hsecond.leaveLoop
    simpa [regions, declarations, Stmt.declarations, Block.declarations] using heffect
  | leave hloop => exact .of_regions rfl rfl (.of_takes (.refl _ _))
  | again hloop => exact .of_regions rfl rfl (.of_takes (.refl _ _))
  | guarded hbody =>
    refine .of_regions rfl rfl ?_
    have heffect := ih _ List.mem_cons_self _ _ _ hbody
    simpa [regions, declarations, Stmt.declarations, Block.declarations, optionalDeclarations]
      using heffect
  | guardedCleanup hcleanup hbody =>
    refine .of_regions rfl rfl ?_
    have hfirst := ih _ List.mem_cons_self _ _ _ hcleanup
    have hsecond := ih _ (List.mem_cons_of_mem _ List.mem_cons_self) _ _ _ hbody
    have heffect := hfirst.guardedBy hsecond
    simpa [regions, declarations, Stmt.declarations, Block.declarations, optionalDeclarations]
      using heffect
  | statics hbody =>
    refine .of_regions rfl rfl ?_
    have heffect := ih _ List.mem_cons_self _ _ _ hbody
    simpa [regions, declarations_map_toStatic] using heffect

/-- Finishing a fragment adds at most the declaration of its local variables. -/
theorem Fragment.declarations_finish (f : Fragment) (ss : List Stmt) :
    declarations (f.finish ss).1 = declarations ss := by
  unfold finish
  dsimp only
  split <;> rfl

/-- The code of a routine keeps the name that it is declared under. -/
theorem codeName_of_buildRoutine {header : RoutineHeader} {body : List Node} {r : Routine}
    (ih : RegionEffect dialect body)
    (hroutine : buildRoutine (Machine.step dialect) header body = .ok r) :
    r.fragment.codeName = header.codeName := by
  obtain ⟨ss, f, hregion, -, hfragment⟩ := buildRoutine_eq_ok hroutine
  rw [hfragment]
  exact (ih _ _ _ hregion).codeName

/-- What building a node does to the region that it is in. -/
theorem Node.Moves.advances {n : Node} {d d' : Draft}
    (hmoves : n.Moves (Machine.step dialect) d d')
    (ih : ∀ nodes ∈ n.regions true, RegionEffect dialect nodes) :
    d.Advances dialect (n.within false) d' := by
  cases hmoves with
  | block hfold => exact .of_replays (Machine.Replays.run hfold)
  | gives hgives => exact .of_effect (hgives.effect ih)
  | routine hroutine =>
    exact .of_declare hroutine (codeName_of_buildRoutine (ih _ List.mem_cons_self) hroutine)

/-- Building nodes advances the region, if the regions inside the nodes have their effects, as
`buildRegion_effect` shows by induction on the nesting. -/
theorem buildNodes_advances_of {nodes : List Node} {d d' : Draft}
    (hrun : buildNodes (Machine.step dialect) nodes d = .ok ((), d'))
    (ih : ∀ n ∈ nodes, ∀ inner ∈ n.regions true, RegionEffect dialect inner) :
    d.Advances dialect (nodesWithin false nodes) d' := by
  induction nodes generalizing d with
  | nil =>
    cases hrun
    exact .refl dialect _
  | cons n nodes hrest =>
    obtain ⟨middle, hmoves, hrun⟩ := buildNodes_cons_eq_ok hrun
    obtain ⟨hn, hnodes⟩ := List.forall_mem_cons.mp ih
    exact (hmoves.advances hn).trans (hrest hrun hnodes)

/-- What building a region does to the fragment around it. -/
theorem buildRegion_effect (dialect : Dialect) (nodes : List Node) :
    RegionEffect dialect nodes := by
  induction nodes using regions_induction with
  | step nodes ih =>
    intro f ss f' hregion
    obtain ⟨d, hrun, hclose⟩ := buildRegion_eq_ok hregion
    have heffect := (buildNodes_advances_of hrun ih).close
    rwa [hclose] at heffect

/-- What building some nodes of a region does to the region. -/
theorem buildNodes_advances {nodes : List Node} {d d' : Draft}
    (hrun : buildNodes (Machine.step dialect) nodes d = .ok ((), d')) :
    d.Advances dialect (nodesWithin false nodes) d' :=
  buildNodes_advances_of hrun fun _ _ inner _ => buildRegion_effect dialect inner

/-- At the end of a fragment no routine is pending. -/
theorem pending_of_buildRoutine {header : RoutineHeader} {body : List Node} {r : Routine}
    (hroutine : buildRoutine (Machine.step dialect) header body = .ok r) :
    r.fragment.pending = [] := by
  obtain ⟨ss, f, hregion, -, hfragment⟩ := buildRoutine_eq_ok hroutine
  have hpending := (buildRegion_effect dialect body _ _ _ hregion).pending
  rw [hfragment]
  change f.pending = []
  cases hfirst : f.pending with
  | nil => rfl
  | cons first rest =>
    have hlookup : f.pending.lookup first.1 = some first.2 := by
      rw [hfirst, List.lookup_cons_self]
    cases hpending first.1 first.2 hlookup

/-- A routine that nobody fetches is declared exactly once in the fragment around it. -/
theorem named_of_buildRoutine {outer header : RoutineHeader} {code body : List Node}
    {whole r : Routine} (hwhole : buildRoutine (Machine.step dialect) outer code = .ok whole)
    (hmem : .routine header body ∈ nodesWithin false code)
    (hclaim : Unclaimed (nodesWithin false code) header.codeName)
    (hroutine : buildRoutine (Machine.step dialect) header body = .ok r) :
    named header.codeName (declarations whole.body.statements) = [r] := by
  obtain ⟨ss, f, hregion, hstatements, -⟩ := buildRoutine_eq_ok hwhole
  have heffect := buildRegion_effect dialect code _ _ _ hregion
  have hperm := heffect.declared _ hclaim fun _ => List.forall_mem_nil _
  rw [builtNamed_eq_singleton hmem hclaim hroutine] at hperm
  rw [hstatements, Fragment.declarations_finish]
  exact List.perm_singleton.mp hperm

end Regions

end GmlDecompiler

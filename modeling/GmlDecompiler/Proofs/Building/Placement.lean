import GmlDecompiler.Proofs.Building.Ledger
import GmlDecompiler.Proofs.Building.Stack
import Mathlib.Data.List.InsertIdx

/-!
# Where routines are declared

Every routine that no instruction fetches is declared exactly once in the fragment around it, by a
statement of the region that it was declared in. While no cleanup is pending, that statement stands
where the routine was declared: after all that the region had given by then, and before all that
it gave later.
-/

namespace GmlDecompiler

section Insert

variable {α : Type}

/-- Inserting in the front of a list leaves its back alone. -/
theorem insertIdx_append_of_le (front back : List α) {i : Nat} (hi : i ≤ front.length) (x : α) :
    (front ++ back).insertIdx i x = front.insertIdx i x ++ back := by
  induction front generalizing i with
  | nil =>
    have hzero : i = 0 := Nat.le_zero.mp hi
    rw [hzero]
    rfl
  | cons a front ih =>
    cases i with
    | zero => rfl
    | succ i =>
      simp only [List.cons_append, List.insertIdx_succ_cons]
      rw [ih (Nat.le_of_succ_le_succ hi)]

/-- Inserting behind the front of a list leaves the front alone. -/
theorem insertIdx_append_add (front back : List α) (i : Nat) (x : α) :
    (front ++ back).insertIdx (front.length + i) x = front ++ back.insertIdx i x := by
  induction front with
  | nil => simp
  | cons a front ih =>
    have hsucc : (a :: front).length + i = front.length + i + 1 := by
      simp only [List.length_cons]
      omega
    rw [hsucc, List.cons_append, List.insertIdx_succ_cons, ih, List.cons_append]

end Insert

namespace Draft

section Positions

variable {front back : List Stmt} {f : Fragment} {declared : List (Nat × String)}

/-- A routine with a position in front of some statements is declared in front of them. -/
theorem settle_append_right {position : Nat} (name : String) (hposition : position ≤ front.length) :
    settle (front ++ back, f) (position, name) =
      ((settle (front, f) (position, name)).1 ++ back, (settle (front, f) (position, name)).2) := by
  unfold settle
  dsimp only
  cases f.takePending name with
  | none => rfl
  | some taken =>
    have hmin : min position (front ++ back).length = position := by
      rw [List.length_append]
      omega
    simp only [hmin, Nat.min_eq_left hposition, insertIdx_append_of_le front back hposition]

/-- A routine with a position behind some statements is declared behind them. -/
theorem settle_append_left {position : Nat} (name : String) (hposition : front.length ≤ position) :
    settle (front ++ back, f) (position, name) =
      (front ++ (settle (back, f) (position - front.length, name)).1,
        (settle (back, f) (position - front.length, name)).2) := by
  unfold settle
  dsimp only
  cases f.takePending name with
  | none => rfl
  | some taken =>
    have hmin : min position (front ++ back).length =
        front.length + min (position - front.length) back.length := by
      rw [List.length_append]
      omega
    simp only [hmin, insertIdx_append_add]

/-- Settling a declaration drops no statement. -/
theorem length_le_length_settle (ss : List Stmt) (f : Fragment) (p : Nat × String) :
    ss.length ≤ (settle (ss, f) p).1.length := by
  unfold settle
  dsimp only
  split
  · exact List.length_le_length_insertIdx
  · exact Nat.le_refl _

/-- Routines with positions in front of some statements are declared in front of them. -/
theorem close_append_right (hpositions : ∀ p ∈ declared, p.1 ≤ front.length) :
    close ⟨f, front ++ back, declared⟩ =
      ((close ⟨f, front, declared⟩).1 ++ back, (close ⟨f, front, declared⟩).2) := by
  induction declared generalizing f front with
  | nil => rfl
  | cons first rest ih =>
    obtain ⟨hfirst, hrest⟩ := List.forall_mem_cons.mp hpositions
    rw [close_cons, close_cons, settle_append_right first.2 hfirst]
    refine ih fun p hp => Nat.le_trans (hrest p hp) ?_
    exact length_le_length_settle front f first

/-- Routines with positions behind some statements are declared behind them. -/
theorem close_append_left (hpositions : ∀ p ∈ declared, front.length ≤ p.1) :
    close ⟨f, front ++ back, declared⟩ =
      let shifted := declared.map fun p => (p.1 - front.length, p.2)
      (front ++ (close ⟨f, back, shifted⟩).1, (close ⟨f, back, shifted⟩).2) := by
  induction declared generalizing f back with
  | nil => rfl
  | cons first rest ih =>
    obtain ⟨hfirst, hrest⟩ := List.forall_mem_cons.mp hpositions
    rw [close_cons, settle_append_left first.2 hfirst, ih hrest]
    rfl

/-- The declarations of a region may be settled in two parts. -/
theorem close_append (f : Fragment) (ss : List Stmt) (first second : List (Nat × String)) :
    close ⟨f, ss, first ++ second⟩ =
      close ⟨(close ⟨f, ss, first⟩).2, (close ⟨f, ss, first⟩).1, second⟩ :=
  List.foldl_append

end Positions

/-- Closing a region drops no statement. -/
theorem output_sublist_close (d : Draft) : d.output.Sublist d.close.1 := by
  obtain ⟨f, ss, declared⟩ := d
  induction declared generalizing f ss with
  | nil => exact List.Sublist.refl _
  | cons first rest ih =>
    rw [close_cons]
    refine List.Sublist.trans ?_ (ih _ _)
    unfold settle
    dsimp only
    split
    · exact List.sublist_insertIdx _ _ _
    · exact List.Sublist.refl _

/-- A routine that is pending for a region is declared by one of its statements. -/
theorem mem_close {d : Draft} {name : String} {r : Routine} (hname : name ∈ d.names)
    (hlookup : d.fragment.pending.lookup name = some r) : .routine r ∈ d.close.1 := by
  obtain ⟨f, ss, declared⟩ := d
  induction declared generalizing f ss with
  | nil => cases hname
  | cons first rest ih =>
    obtain ⟨position, last⟩ := first
    rw [close_cons]
    by_cases hlast : name = last
    · subst hlast
      refine (output_sublist_close _).subset ?_
      have htake : f.takePending name =
          some (r, { f with pending := f.pending.filter (·.1 != name) }) := by
        simp only [Fragment.takePending, hlookup, Option.map_some]
      simp only [settle, htake]
      exact (List.mem_insertIdx (Nat.min_le_right _ _)).mpr (.inl rfl)
    · obtain ⟨htakes, -⟩ := settle_takes ss f position last
      refine ih _ _ (List.mem_of_ne_of_mem hlast hname) ?_
      exact (htakes.lookup_eq hlast).trans hlookup

/-- A routine that is still pending when its region is closed is declared at its position, and
the others on the side of it that they were declared on. -/
theorem close_split {f : Fragment} {out later : List Stmt} {new old : List (Nat × String)}
    {name : String} {r : Routine} (hnew : ∀ p ∈ new, out.length ≤ p.1)
    (hold : ∀ p ∈ old, p.1 ≤ out.length) (hname : name ∉ new.map (·.2))
    (hlookup : f.pending.lookup name = some r)
    (htagged : Tagged ⟨f, out ++ later, new ++ (out.length, name) :: old⟩) :
    ∃ front back, (close ⟨f, out ++ later, new ++ (out.length, name) :: old⟩).1 =
        front ++ .routine r :: back ∧ out.Sublist front ∧ later.Sublist back ∧
      codeNames (declarations front) ⊆ codeNames (declarations out) ++ old.map (·.2) ∧
      codeNames (declarations back) ⊆ codeNames (declarations later) ++ new.map (·.2) := by
  -- what was declared after the routine is settled first, behind it
  let behind : Draft := ⟨f, later, new.map fun p => (p.1 - out.length, p.2)⟩
  have hbehind : behind.names = new.map (·.2) := by
    simp [behind, names, Function.comp_def]
  obtain ⟨htakes, -⟩ := behind.close_takes
  have hstill : behind.close.2.pending.lookup name = some r := by
    rw [htakes.lookup_eq (hbehind ▸ hname)]
    exact hlookup
  obtain ⟨htaken, -⟩ := settle_takes behind.close.1 behind.close.2 0 name
  have hsettled : (settle (behind.close.1, behind.close.2) (0, name)).1 =
      .routine r :: behind.close.1 := by
    simp [settle, Fragment.takePending, hstill]
  -- what was declared before it is settled last, in front of it
  let ahead : Draft := ⟨(settle (behind.close.1, behind.close.2) (0, name)).2, out, old⟩
  have hclose : (close ⟨f, out ++ later, new ++ (out.length, name) :: old⟩).1 =
      ahead.close.1 ++ .routine r :: behind.close.1 := by
    rw [close_append, close_append_left hnew, close_cons,
      settle_append_left name (Nat.le_refl out.length), Nat.sub_self, close_append_right hold]
    dsimp only
    rw [hsettled]
  refine ⟨ahead.close.1, behind.close.1, hclose, ahead.output_sublist_close,
    behind.output_sublist_close, ?_, ?_⟩
  · refine codeNames_close (htagged.mono ?_ fun k s hs => ?_)
    · rw [names, names, List.map_append]
      exact List.subset_append_of_subset_right _ (List.subset_cons_self _ _)
    · exact htakes.lookup_of_lookup (htaken.lookup_of_lookup hs)
  · rw [← hbehind]
    refine codeNames_close (htagged.mono ?_ fun k s hs => hs)
    rw [hbehind, names, List.map_append]
    exact List.subset_append_left _ _

end Draft

section Routine

variable {dialect : Dialect} {before after body : List Node} {header : RoutineHeader}
  {f f' : Fragment} {ss : List Stmt} {r : Routine}

/-- The statements of a region, seen from a routine that a node of the region declares. The
routine stands after all statements that the region had given before the node, and before all
that it gave later. Nothing else is put between them but routines that were declared on the same
side. -/
def StandsBetween (dialect : Dialect) (before : List Node) (n : Node) (after : List Node)
    (f : Fragment) (r : Routine) (ss : List Stmt) : Prop :=
  ∃ (d₁ d₂ : Draft) (later front back : List Stmt),
    buildNodes (Machine.step dialect) before { fragment := f } = .ok ((), d₁) ∧
    buildNodes (Machine.step dialect) (before ++ n :: after) { fragment := f } = .ok ((), d₂) ∧
    d₂.output = d₁.output ++ later ∧
    ss = front ++ .routine r :: back ∧
    d₁.output.Sublist front ∧ later.Sublist back ∧
    codeNames (declarations front) ⊆ declaredNames (nodesWithin false before) ∧
    codeNames (declarations back) ⊆ declaredNames (nodesWithin false after)

/-- The nodes of a region before and after one that declares a routine. -/
theorem buildNodes_routine_eq_ok {d d₂ : Draft}
    (hrun : buildNodes (Machine.step dialect) (before ++ .routine header body :: after) d =
      .ok ((), d₂)) :
    ∃ d₁ r, buildNodes (Machine.step dialect) before d = .ok ((), d₁) ∧
      buildRoutine (Machine.step dialect) header body = .ok r ∧
      buildNodes (Machine.step dialect) after (d₁.declare header r) = .ok ((), d₂) := by
  obtain ⟨d₁, hbefore, hrest⟩ := buildNodes_append_eq_ok hrun
  obtain ⟨⟨_, middle⟩, hnested, hafter⟩ := exists_of_bind_eq_ok hrest
  obtain ⟨r, hroutine, rfl⟩ := nested_eq_ok hnested
  exact ⟨d₁, r, hbefore, hroutine, hafter⟩

/-- A routine that nobody fetches is declared nowhere else in the region. -/
theorem Unclaimed.around
    (hclaim : Unclaimed (nodesWithin false (before ++ .routine header body :: after))
      header.codeName) :
    (Unclaimed (nodesWithin false before) header.codeName ∧
      header.codeName ∉ declaredNames (nodesWithin false before)) ∧
    Unclaimed (nodesWithin false after) header.codeName ∧
      header.codeName ∉ declaredNames (nodesWithin false after) := by
  have hsplit : nodesWithin false (before ++ .routine header body :: after) =
      nodesWithin false before ++ ([.routine header body] ++ nodesWithin false after) := by
    rw [nodesWithin_append, nodesWithin]
    rfl
  rw [hsplit] at hclaim
  obtain ⟨hbefore, hafter⟩ := hclaim.notMem_others
  exact ⟨⟨hclaim.left, hbefore⟩, hclaim.right.right, hafter⟩

/-- While no cleanup is pending, a routine that is still pending at the end of its region is
declared where it stood. -/
theorem standsBetween_of_close {d₁ d₂ : Draft} (hnone : f.cleanups = [])
    (hbefore : buildNodes (Machine.step dialect) before { fragment := f } = .ok ((), d₁))
    (hafter : buildNodes (Machine.step dialect) after (d₁.declare header r) = .ok ((), d₂))
    (hrun : buildNodes (Machine.step dialect) (before ++ .routine header body :: after)
      { fragment := f } = .ok ((), d₂))
    (hname : header.codeName ∉ declaredNames (nodesWithin false after))
    (hpending : d₂.fragment.pending.lookup header.codeName = some r) :
    StandsBetween dialect before (.routine header body) after f r d₂.close.1 := by
  have hfirst := buildNodes_advances hbefore
  have hsecond := buildNodes_advances hafter
  have htagged : d₂.Tagged := (buildNodes_advances hrun).tagged fun _ h => nomatch h
  have hnone₁ : (d₁.declare header r).fragment.cleanups = [] := by
    rw [Draft.cleanups_declare, hfirst.cleanups, hnone]
  have hahead : ∀ p ∈ d₁.declared, p.1 ≤ d₁.output.length := by
    obtain ⟨old, hold, -, hpositions⟩ := hfirst.declares
    intro p hp
    rw [hold, List.append_nil] at hp
    exact (hpositions hnone p hp).2
  obtain ⟨new, hnew, hnewNames, hpositions⟩ := hsecond.declares
  have hnotNew : header.codeName ∉ new.map (·.2) := by
    intro hmem
    obtain ⟨p, hp, hsame⟩ := List.mem_map.mp hmem
    exact hname (hsame ▸ hnewNames p hp)
  obtain ⟨later, houtput, hlater⟩ := hsecond.appends hnone₁
  obtain ⟨g, out, declared⟩ := d₂
  cases houtput
  cases hnew
  obtain ⟨front, back, hclose, hfront, hback, hfrontNames, hbackNames⟩ :=
    Draft.close_split (fun p hp => (hpositions hnone₁ p hp).1) hahead hnotNew hpending htagged
  refine ⟨d₁, _, later, front, back, hbefore, hrun, rfl, hclose, hfront, hback, ?_, ?_⟩
  · refine List.Subset.trans hfrontNames (List.append_subset.mpr ⟨?_, ?_⟩)
    · intro k hk
      obtain ⟨s, hs, rfl⟩ := List.mem_map.mp hk
      exact (hfirst.covered s hs).resolve_left List.not_mem_nil
    · intro k hk
      exact (hfirst.mem_names hk).resolve_right List.not_mem_nil
  · refine List.Subset.trans hbackNames (List.append_subset.mpr ⟨?_, ?_⟩)
    · intro k hk
      obtain ⟨s, hs, rfl⟩ := List.mem_map.mp hk
      exact hlater s hs
    · intro k hk
      obtain ⟨p, hp, rfl⟩ := List.mem_map.mp hk
      exact hnewNames p hp

/-- A routine that nobody fetches is declared exactly once in its region, by a statement of the
region. -/
theorem region_declares_routine
    (hregion : buildRegion (Machine.step dialect) (before ++ .routine header body :: after) f =
      .ok (ss, f'))
    (hclaim : Unclaimed (nodesWithin false (before ++ .routine header body :: after))
      header.codeName) :
    ∃ r, buildRoutine (Machine.step dialect) header body = .ok r ∧
      named header.codeName (declarations ss) = [r] ∧ .routine r ∈ ss ∧
      (f.cleanups = [] →
        StandsBetween dialect before (.routine header body) after f r ss) := by
  obtain ⟨d₂, hrun, hclose⟩ := buildRegion_eq_ok hregion
  obtain ⟨d₁, r, hbefore, hroutine, hafter⟩ := buildNodes_routine_eq_ok hrun
  obtain ⟨⟨hclaimBefore, hnameBefore⟩, hclaimAfter, hnameAfter⟩ := hclaim.around
  have hfirst := buildNodes_advances hbefore
  have hsecond := buildNodes_advances hafter
  have htagged : d₂.Tagged := (buildNodes_advances hrun).tagged fun _ h => nomatch h
  have hfresh : header.codeName ∉ d₁.names := fun h =>
    (hfirst.mem_names h).elim hnameBefore List.not_mem_nil
  have hpending : d₂.fragment.pending.lookup header.codeName = some r := by
    rw [hsecond.kept _ hnameAfter hclaimAfter.unfetched, Draft.lookup_declare, if_pos rfl]
  have hnames : header.codeName ∈ d₂.names := hsecond.names_subset List.mem_cons_self
  have hss : d₂.close.1 = ss := congrArg Prod.fst hclose
  refine ⟨r, hroutine, ?_, hss ▸ Draft.mem_close hnames hpending, fun hnone => ?_⟩
  · -- before the node the region has no routine of the name, and after it this one
    have hheld₁ : d₁.held header.codeName = [] := by
      have hperm := hfirst.held _ hclaimBefore (fun h => absurd h hnameBefore)
        fun h => absurd h (not_or.mpr ⟨hnameBefore, List.not_mem_nil⟩)
      rw [builtNamed_eq_nil hnameBefore] at hperm
      exact hperm.eq_nil
    have hheld : (d₁.declare header r).held header.codeName = [r] := by
      rw [Draft.held_declare d₁ r fun _ => hfresh, hheld₁, if_pos rfl, List.nil_append]
    have hundeclared : header.codeName ∉ codeNames (declarations d₁.output) :=
      named_eq_nil_iff.mp (List.append_eq_nil_iff.mp hheld₁).1
    have hheld₂ : (d₂.held header.codeName).Perm [r] := by
      have hperm := hsecond.held _ hclaimAfter (fun h => absurd h hnameAfter)
        fun h => absurd h (not_or.mpr ⟨hnameAfter, hundeclared⟩)
      rwa [builtNamed_eq_nil hnameAfter, List.append_nil, hheld] at hperm
    rw [← hss]
    exact List.perm_singleton.mp ((Draft.named_close htagged _).trans hheld₂)
  · rw [← hss]
    exact standsBetween_of_close hnone hbefore hafter hrun hnameAfter hpending

end Routine

/-- The routine that a node of a region declares is declared once and only once: in the statements
of the whole fragment, and by a statement of the region, from whatever state the region is built.
While no cleanup is pending, the statement stands where the node does. -/
structure DeclaredOnce (dialect : Dialect) (whole : List Stmt) (before : List Node)
    (header : RoutineHeader) (body after : List Node) (r : Routine) : Prop where
  built : buildRoutine (Machine.step dialect) header body = .ok r
  codeName : r.fragment.codeName = header.codeName
  inFragment : named header.codeName (declarations whole) = [r]
  reached : RegionBuilds (Machine.step dialect) (before ++ .routine header body :: after)
  inRegion : ∀ f ss f',
    buildRegion (Machine.step dialect) (before ++ .routine header body :: after) f = .ok (ss, f') →
      named header.codeName (declarations ss) = [r] ∧ .routine r ∈ ss ∧
        (f.cleanups = [] → StandsBetween dialect before (.routine header body) after f r ss)

/-- A routine of an entry that no instruction fetches is declared once and only once, if the
routines of the entry have different names. -/
theorem Entry.declaredOnce {dialect : Dialect} {entry : Entry} {outer : RoutineHeader}
    {code : List Node} {whole : Routine}
    (hdistinct : (declaredNames (nodesWithin true entry.body)).Nodup)
    (hfragment : (outer, code) ∈ entry.fragments)
    (hwhole : buildRoutine (Machine.step dialect) outer code = .ok whole)
    {before : List Node} {header : RoutineHeader} {body after : List Node}
    (hregion : before ++ .routine header body :: after ∈ regionsOf code)
    (hunfetched : ¬ Fetched (nodesWithin true entry.body) header.codeName) :
    ∃ r, DeclaredOnce dialect whole.body.statements before header body after r := by
  have hinside := entry.nodesWithin_sublist_of_mem_fragments hfragment
  have hwithin := nodesWithin_sublist_of_mem_regionsOf hregion
  have hclaim := Unclaimed.of_sublist (hwithin.trans hinside) hdistinct hunfetched
  obtain ⟨ss, f, hbody, -⟩ := buildRoutine_eq_ok hwhole
  have hreached := RegionBuilds.of_mem_regionsOf ⟨_, ss, f, hbody⟩ hregion
  obtain ⟨g, ts, g', hrun⟩ := hreached
  obtain ⟨r, hroutine, -⟩ := region_declares_routine hrun hclaim
  have hmem : .routine header body ∈ nodesWithin false code :=
    hwithin.subset (subset_nodesWithin _ (List.mem_append_right _ List.mem_cons_self))
  refine
    ⟨r, { built := hroutine
          codeName := codeName_of_buildRoutine (buildRegion_effect dialect body) hroutine
          inFragment := ?_
          reached := ⟨g, ts, g', hrun⟩
          inRegion := ?_ }⟩
  · have hclaim' := Unclaimed.of_sublist hinside hdistinct hunfetched
    exact named_of_buildRoutine hwhole hmem hclaim' hroutine
  · intro g ts g' hrun
    obtain ⟨s, hs, hdeclared⟩ := region_declares_routine hrun hclaim
    cases hroutine.symm.trans hs
    exact hdeclared

/-- Building loses no routine and doubles none. A region that is built leaves as many fragments as
there were, the outer ones as they were, and the innermost one in the same loop, with the same
cleanups, and with no routine pending that was not pending before; so none is pending at the end
of a fragment. If the routines of an entry have different names, every one that no instruction
fetches is declared exactly once in the fragment around it, by a statement of the region that it
was declared in, and in its place if no cleanup is pending. -/
theorem build_loses_no_routine (dialect : Dialect) :
    (∀ nodes f outer ss fragments,
      buildRegionOn (Machine.step dialect) nodes (f :: outer) = .ok (ss, fragments) →
      ∃ f', fragments = f' :: outer ∧
        buildRegion (Machine.step dialect) nodes f = .ok (ss, f') ∧
        f'.inLoop = f.inLoop ∧ f'.cleanups = f.cleanups ∧
        ∀ name r, f'.pending.lookup name = some r → f.pending.lookup name = some r) ∧
    (∀ header body r, buildRoutine (Machine.step dialect) header body = .ok r →
      r.fragment.pending = []) ∧
    ∀ (entry : Entry) (block : Block) (root : Fragment),
      entry.build dialect = .ok (block, root) →
      (declaredNames (nodesWithin true entry.body)).Nodup →
      (∃ whole, buildRoutine (Machine.step dialect) entry.header entry.body = .ok whole ∧
        whole.body.statements = block.statements ∧ whole.fragment = root) ∧
      ∀ outer code, (outer, code) ∈ entry.fragments →
        ∃ whole, buildRoutine (Machine.step dialect) outer code = .ok whole ∧
          ∀ before header body after, before ++ .routine header body :: after ∈ regionsOf code →
            ¬ Fetched (nodesWithin true entry.body) header.codeName →
            ∃ r, DeclaredOnce dialect whole.body.statements before header body after r := by
  refine ⟨?_, fun header body r => pending_of_buildRoutine, ?_⟩
  · intro nodes f outer ss fragments hrun
    rw [buildRegionOn_eq] at hrun
    cases hregion : buildRegion (Machine.step dialect) nodes f with
    | error fault =>
      rw [hregion] at hrun
      cases hrun
    | ok result =>
      rw [hregion] at hrun
      cases hrun
      have heffect := buildRegion_effect dialect nodes f _ _ hregion
      exact ⟨result.2, rfl, rfl, heffect.inLoop, heffect.cleanups, heffect.pending⟩
  · intro entry block root hbuild hdistinct
    refine ⟨entry.build_eq_ok hbuild, fun outer code hfragment => ?_⟩
    obtain ⟨whole, hwhole⟩ := entry.exists_buildRoutine hbuild _ hfragment
    exact ⟨whole, hwhole, fun before header body after hregion hunfetched =>
      entry.declaredOnce hdistinct hfragment hwhole hregion hunfetched⟩

namespace Sample

/-- A function that no instruction of the code around it fetches. -/
def helper : RoutineHeader where
  codeName := "gml_Script_helper_gml_Object_player_Step_0"
  name := some "helper"

/-- The variable set to a value. -/
def setLives (value : Int16) : Node :=
  .block ⟨0, [.pushImmediate value, .popVariable ⟨"lives", .own⟩ .normal .variable]⟩

/-- The function declared between two statements. -/
def helping : List Node :=
  [setLives 3, .routine helper [.block ⟨0, [.plain .exit]⟩], setLives 4]

/-- Code that declares the function in a branch. -/
def branching : Entry where
  name := "gml_Object_player_Step_0"
  body := [.block ⟨0, [.pushImmediate 1]⟩, .branch helping none]

end Sample

/-- The function in the branch is declared between the two assignments. -/
theorem build_loses_no_routine_helper :
    ∃ block root r, Sample.branching.build Version.current.dialect = .ok (block, root) ∧
      DeclaredOnce Version.current.dialect block.statements [Sample.setLives 3] Sample.helper
        [.block ⟨0, [.plain .exit]⟩] [Sample.setLives 4] r := by
  have hbuilds : (Sample.branching.build Version.current.dialect).toOption.isSome = true := by
    decide +kernel
  cases hbuild : Sample.branching.build Version.current.dialect with
  | error fault =>
    rw [hbuild] at hbuilds
    cases hbuilds
  | ok result =>
    obtain ⟨-, -, hentry⟩ := build_loses_no_routine Version.current.dialect
    obtain ⟨⟨root, hroot, hstatements, -⟩, hfragments⟩ := hentry _ _ _ hbuild (by decide +kernel)
    obtain ⟨whole, hwhole, hdeclared⟩ := hfragments _ _ List.mem_cons_self
    cases hroot.symm.trans hwhole
    have hnode : .branch Sample.helping none ∈ nodesWithin false Sample.branching.body :=
      subset_nodesWithin _ (List.mem_cons_of_mem _ List.mem_cons_self)
    have hregion : [Sample.setLives 3] ++ .routine Sample.helper [.block ⟨0, [.plain .exit]⟩] ::
        [Sample.setLives 4] ∈ regionsOf Sample.branching.body :=
      List.mem_cons_of_mem _ (List.mem_flatMap.mpr ⟨_, hnode, List.mem_cons_self⟩)
    obtain ⟨r, honce⟩ := hdeclared _ _ _ _ hregion (by decide +kernel)
    exact ⟨result.1, result.2, r, rfl, hstatements ▸ honce⟩

end GmlDecompiler

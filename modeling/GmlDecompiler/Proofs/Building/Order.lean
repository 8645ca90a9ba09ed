import GmlDecompiler.Program
import GmlDecompiler.Proofs.Building.Placement
import Mathlib.Data.List.Nodup

/-!
# The order of declarations

The routines that are still pending at the end of a region are declared at the positions where they
were met, from the last one to the first. A position is a number of statements. So the routines keep
their order while the statements before them stay; but once statements are dropped, with the copy of
a cleanup, a position may be greater than that of a later routine, or than the number of statements
that are left. Two routines keep their order if the position of the first is neither. All of them do
exactly if that holds of every two.
-/

namespace GmlDecompiler

section Placing

variable {α : Type} {a b : α} {l xs : List α} {i j n : Nat}

/-- Some elements put into a list, the last one first, each at its position or at the end. -/
def placeAll (ps : List (Nat × α)) (xs : List α) : List α :=
  ps.foldr (fun p ys => ys.insertIdx (min p.1 ys.length) p.2) xs

/-- Inserting an element puts it between the elements before the position and those after it. -/
theorem insertIdx_eq_take_drop (hi : i ≤ xs.length) (a : α) :
    xs.insertIdx i a = xs.take i ++ a :: xs.drop i := by
  have hlength : (xs.take i).length = i := List.length_take_of_le hi
  have hinsert := insertIdx_append_add (xs.take i) (xs.drop i) 0 a
  rwa [List.take_append_drop, hlength] at hinsert

/-- What stands behind some elements of a list stands behind as many after an insertion. -/
theorem mem_drop_insertIdx (hb : b ∈ xs.drop n) : b ∈ (xs.insertIdx i a).drop n := by
  induction n generalizing xs i with
  | zero => exact List.subset_insertIdx xs i a hb
  | succ n ih =>
    cases xs with
    | nil => cases hb
    | cons c xs =>
      rw [List.drop_succ_cons] at hb
      cases i with
      | zero => exact List.drop_subset_drop_left (c :: xs) n.le_succ hb
      | succ i => exact ih hb

/-- An element that is put in front of another one precedes it. -/
theorem sublist_insertIdx_of_mem_drop (hb : b ∈ xs.drop i) (hi : i ≤ xs.length) :
    [a, b].Sublist (xs.insertIdx i a) := by
  rw [insertIdx_eq_take_drop hi]
  exact ((List.singleton_sublist.mpr hb).cons_cons a).trans (List.sublist_append_right _ _)

/-- Elements that are in order beside a new one were in order without it. -/
theorem sublist_of_sublist_insertIdx (hl : l.Sublist (xs.insertIdx i a)) (ha : a ∉ l)
    (hi : i ≤ xs.length) : l.Sublist xs := by
  rw [insertIdx_eq_take_drop hi, List.sublist_append_iff] at hl
  obtain ⟨front, back, rfl, hfront, hback⟩ := hl
  rw [← List.take_append_drop i xs]
  refine hfront.append ?_
  rcases List.sublist_cons_iff.mp hback with hback | ⟨back, rfl, -⟩
  · exact hback
  · exact absurd (List.mem_append_right _ List.mem_cons_self) ha

/-- A new element that precedes another one was put in front of it. -/
theorem le_of_sublist_insertIdx (hsub : [a, b].Sublist ((xs.insertIdx j b).insertIdx i a))
    (ha : a ∉ xs) (hb : b ∉ xs) (hab : a ≠ b) (hj : j ≤ xs.length) : i ≤ j := by
  by_contra hlater
  have hsplit : (xs.insertIdx j b).insertIdx i a =
      (xs.take j ++ [b]) ++ (xs.drop j).insertIdx (i - (j + 1)) a := by
    have hlength : (xs.take j ++ [b]).length + (i - (j + 1)) = i := by
      rw [List.length_append, List.length_take_of_le hj, List.length_singleton]
      omega
    rw [← insertIdx_append_add, hlength, insertIdx_eq_take_drop hj, List.append_assoc,
      List.singleton_append]
  rw [hsplit, List.sublist_append_iff] at hsub
  obtain ⟨front, back, hpair, hfront, hback⟩ := hsub
  cases front with
  | nil =>
    rw [List.nil_append] at hpair
    have hmem : b ∈ (xs.drop j).insertIdx (i - (j + 1)) a := hback.subset (by simp [← hpair])
    rcases List.eq_or_mem_of_mem_insertIdx hmem with hsame | hmem
    · exact hab hsame.symm
    · exact hb (List.mem_of_mem_drop hmem)
  | cons c front =>
    obtain ⟨rfl, -⟩ := List.cons_eq_cons.mp hpair
    have hmem := hfront.subset List.mem_cons_self
    rcases List.mem_append.mp hmem with hmem | hmem
    · exact ha (List.mem_of_mem_take hmem)
    · exact hab (List.mem_singleton.mp hmem)

/-- Every element that is put into a list makes it longer by one. -/
theorem length_placeAll (ps : List (Nat × α)) (xs : List α) :
    (placeAll ps xs).length = ps.length + xs.length := by
  induction ps with
  | nil => simp [placeAll]
  | cons p ps ih =>
    have hlength := List.length_insertIdx_of_le_length
      (Nat.min_le_right p.1 (placeAll ps xs).length) p.2
    rw [List.length_cons, Nat.add_right_comm, ← ih]
    exact hlength

/-- After elements were put into a list, it has those and its own, and no others. -/
theorem mem_placeAll {ps : List (Nat × α)} (ha : a ∈ placeAll ps xs) :
    a ∈ ps.map (·.2) ∨ a ∈ xs := by
  induction ps with
  | nil => exact .inr ha
  | cons p ps ih =>
    rcases List.eq_or_mem_of_mem_insertIdx ha with rfl | ha
    · exact .inl List.mem_cons_self
    · exact (ih ha).imp_left (List.mem_cons_of_mem _)

/-- If different elements come to stand in their order, then every position but the last one is in
the list, and no position is greater than a later one. -/
theorem positions_of_pairwise_sublist {ps : List (Nat × α)} (hdistinct : (ps.map (·.2)).Nodup)
    (hfresh : ∀ p ∈ ps, p.2 ∉ xs)
    (hordered : ps.Pairwise fun p q => [p.2, q.2].Sublist (placeAll ps xs)) :
    ps.Pairwise fun p q => p.1 ≤ min q.1 xs.length := by
  induction ps with
  | nil => exact .nil
  | cons p ps ih =>
    obtain ⟨hnew, hothers⟩ := List.nodup_cons.mp hdistinct
    obtain ⟨hfreshNew, hfreshOthers⟩ := List.forall_mem_cons.mp hfresh
    obtain ⟨hfirst, hrest⟩ := List.pairwise_cons.mp hordered
    -- the others are in order without the first element
    have hplaced : ps.Pairwise fun q r => q.1 ≤ min r.1 xs.length := by
      refine ih hothers hfreshOthers (hrest.imp_of_mem fun {q r} hq hr hqr => ?_)
      refine sublist_of_sublist_insertIdx hqr ?_ (Nat.min_le_right _ _)
      have hother {q : Nat × α} (hq : q ∈ ps) : p.2 ≠ q.2 :=
        fun hsame => hnew (List.mem_map.mpr ⟨q, hq, hsame.symm⟩)
      simp [hother hq, hother hr]
    refine List.pairwise_cons.mpr ⟨?_, hplaced⟩
    cases ps with
    | nil => exact List.forall_mem_nil _
    | cons q ps =>
      obtain ⟨hsecond, -⟩ := List.pairwise_cons.mp hplaced
      have hpq : p.2 ≠ q.2 := List.ne_of_not_mem_cons hnew
      have hlength := length_placeAll ps xs
      have hle : min p.1 (placeAll (q :: ps) xs).length ≤ min q.1 (placeAll ps xs).length := by
        refine le_of_sublist_insertIdx (hfirst q List.mem_cons_self) ?_ ?_ hpq
          (Nat.min_le_right _ _)
        · intro hmem
          rcases mem_placeAll hmem with hmem | hmem
          · exact hnew (List.mem_cons_of_mem _ hmem)
          · exact hfreshNew hmem
        · intro hmem
          rcases mem_placeAll hmem with hmem | hmem
          · exact (List.nodup_cons.mp hothers).1 hmem
          · exact hfreshOthers q List.mem_cons_self hmem
      rw [length_placeAll, List.length_cons, hlength] at hle
      have hfits : p.1 ≤ min q.1 xs.length := by
        cases ps with
        | nil =>
          rw [List.length_nil] at hle
          omega
        | cons r ps =>
          have hbetween := hsecond r List.mem_cons_self
          omega
      refine List.forall_mem_cons.mpr ⟨hfits, fun r hr => ?_⟩
      have hlater := hsecond r hr
      omega

end Placing

namespace Draft

section Close

variable {f : Fragment} {ss : List Stmt} {name : String} {r : Routine}

/-- A routine that is pending is declared at its position, or at the end if the position is
beyond. -/
theorem settle_of_lookup (ss : List Stmt) (hlookup : f.pending.lookup name = some r)
    (position : Nat) :
    (settle (ss, f) (position, name)).1 = ss.insertIdx (min position ss.length) (.routine r) := by
  simp only [settle, Fragment.takePending, hlookup, Option.map_some]

/-- A routine that is declared stands behind as many statements as its position says, if there are
as many. -/
theorem mem_drop_settle (hlookup : f.pending.lookup name = some r) {n position : Nat}
    (hn : n ≤ min position ss.length) :
    .routine r ∈ (settle (ss, f) (position, name)).1.drop n := by
  rw [settle_of_lookup ss hlookup, insertIdx_eq_take_drop (Nat.min_le_right _ _)]
  refine List.drop_subset_drop_left _ hn ?_
  rw [List.drop_left' (List.length_take_of_le (Nat.min_le_right _ _))]
  exact List.mem_cons_self

/-- A routine that is declared precedes the statements that stood behind its position. -/
theorem sublist_settle (hlookup : f.pending.lookup name = some r) {s : Stmt} {position : Nat}
    (hs : s ∈ ss.drop position) : [.routine r, s].Sublist (settle (ss, f) (position, name)).1 := by
  have hle : position ≤ ss.length := by
    have hlength := List.length_pos_of_mem hs
    rw [List.length_drop] at hlength
    omega
  rw [settle_of_lookup ss hlookup, Nat.min_eq_left hle]
  exact sublist_insertIdx_of_mem_drop hs hle

/-- What stands behind some statements of a region stands behind as many after the region is
closed. -/
theorem mem_drop_close {d : Draft} {s : Stmt} {n : Nat} (hs : s ∈ d.output.drop n) :
    s ∈ d.close.1.drop n := by
  obtain ⟨f, ss, declared⟩ := d
  induction declared generalizing f ss with
  | nil => exact hs
  | cons first rest ih =>
    rw [close_cons]
    refine ih _ _ ?_
    unfold settle
    dsimp only
    split
    · exact mem_drop_insertIdx hs
    · exact hs

/-- Two routines are declared in their order if the position of the first one is not greater than
that of the second one, and there are as many statements. -/
theorem sublist_close {newer between older : List (Nat × String)} {p q : Nat}
    {first second : String} {r₁ r₂ : Routine}
    (hfirst : first ∉ (newer ++ (q, second) :: between).map (·.2))
    (hsecond : second ∉ newer.map (·.2))
    (hr₁ : f.pending.lookup first = some r₁) (hr₂ : f.pending.lookup second = some r₂)
    (hposition : p ≤ min q ss.length) :
    [.routine r₁, .routine r₂].Sublist
      (close ⟨f, ss, newer ++ (q, second) :: (between ++ (p, first) :: older)⟩).1 := by
  simp only [List.map_append, List.map_cons, List.mem_append, List.mem_cons, not_or] at hfirst
  obtain ⟨hnewer, hne, hbetween⟩ := hfirst
  -- the region before and after the second routine is settled, and before the first one is
  let a : Draft := ⟨f, ss, newer⟩
  let b : Draft := ⟨(settle a.close (q, second)).2, (settle a.close (q, second)).1, between⟩
  have hclose : close ⟨f, ss, newer ++ (q, second) :: (between ++ (p, first) :: older)⟩ =
      close ⟨(settle b.close (p, first)).2, (settle b.close (p, first)).1, older⟩ := by
    rw [close_append, close_cons, close_append, close_cons]
  have haTakes := a.close_takes.1
  have hsettled := (settle_takes a.close.1 a.close.2 q second).1
  have hbTakes := b.close_takes.1
  have hlast : a.close.2.pending.lookup second = some r₂ :=
    (haTakes.lookup_eq hsecond).trans hr₂
  have hstill : b.close.2.pending.lookup first = some r₁ := by
    rw [hbTakes.lookup_eq hbetween]
    exact (hsettled.lookup_eq hne).trans ((haTakes.lookup_eq hnewer).trans hr₁)
  have hgrows : ss.length ≤ a.close.1.length := a.output_sublist_close.length_le
  have hle : p ≤ min q a.close.1.length := by omega
  have hbehind : .routine r₂ ∈ b.output.drop p := mem_drop_settle hlast hle
  rw [hclose]
  refine List.Sublist.trans ?_ (output_sublist_close _)
  exact sublist_settle hstill (mem_drop_close hbehind)

/-- The routines that are pending for the region, in the order of their declarations, each with the
number of statements before it. -/
def waiting (d : Draft) : List (Nat × Routine) :=
  d.declared.reverse.filterMap fun p => (d.fragment.pending.lookup p.2).map (p.1, ·)

/-- Closing a region puts the routines that are pending for it between its statements. -/
theorem close_eq_placeAll {d : Draft} (hdistinct : d.names.Nodup) :
    d.close.1 = placeAll (d.waiting.map fun x => (x.1, .routine x.2)) d.output := by
  obtain ⟨f, ss, declared⟩ := d
  induction declared generalizing f ss with
  | nil => rfl
  | cons last rest ih =>
    obtain ⟨position, name⟩ := last
    obtain ⟨hnew, hrest⟩ := List.nodup_cons.mp hdistinct
    have htakes := (settle_takes ss f position name).1
    -- the others are pending as before
    have hothers : waiting ⟨(settle (ss, f) (position, name)).2,
        (settle (ss, f) (position, name)).1, rest⟩ = waiting ⟨f, ss, rest⟩ := by
      refine List.filterMap_congr fun p hp => ?_
      have hother : p.2 ≠ name := fun hsame =>
        hnew (List.mem_map.mpr ⟨p, List.mem_reverse.mp hp, hsame⟩)
      rw [htakes.lookup_eq hother]
    have hwaiting : waiting ⟨f, ss, (position, name) :: rest⟩ =
        waiting ⟨f, ss, rest⟩ ++ ((f.pending.lookup name).map (position, ·)).toList := by
      simp only [waiting, List.reverse_cons, List.filterMap_append]
      cases hlookup : f.pending.lookup name <;> simp [hlookup]
    rw [close_cons, ih _ _ hrest, hothers, hwaiting]
    cases hlookup : f.pending.lookup name with
    | none => simp [settle, Fragment.takePending, hlookup]
    | some r =>
      rw [settle_of_lookup ss hlookup]
      simp [placeAll]

end Close

end Draft

section Nodes

variable {dialect : Dialect} {nodes : List Node} {f : Fragment} {d d' : Draft}

/-- A region is built by building its nodes and closing it. -/
theorem buildRegion_of_buildNodes {replay : Replay}
    (hrun : buildNodes replay nodes { fragment := f } = .ok ((), d)) :
    buildRegion replay nodes f = .ok d.close := by
  simp only [buildRegion, hrun, bind, Except.bind]
  rfl

/-- A node declares its routine, or it declares nothing and nothing more is pending after it. -/
theorem Node.Moves.declares_or {n : Node} (hmoves : n.Moves (Machine.step dialect) d d') :
    (∃ header body r, n = .routine header body ∧
      buildRoutine (Machine.step dialect) header body = .ok r ∧ d' = d.declare header r) ∨
    n.routine? = none ∧ d'.declared = d.declared ∧ ∀ name r,
      d'.fragment.pending.lookup name = some r → d.fragment.pending.lookup name = some r := by
  cases hmoves with
  | block hfold =>
    have htakes := (Machine.Replays.run hfold).takes
    exact .inr ⟨rfl, rfl, fun _ _ => htakes.lookup_of_lookup⟩
  | gives hgives =>
    have heffect := hgives.effect fun inner _ => buildRegion_effect dialect inner
    refine .inr ⟨?_, rfl, heffect.pending⟩
    cases hgives <;> rfl
  | routine hroutine => exact .inl ⟨_, _, _, rfl, hroutine, rfl⟩

/-- Building nodes declares their routines in their order. -/
theorem buildNodes_declared (hrun : buildNodes (Machine.step dialect) nodes d = .ok ((), d')) :
    ∃ new, d'.declared = new ++ d.declared ∧ new.map (·.2) = (declaredNames nodes).reverse := by
  induction nodes generalizing d with
  | nil =>
    cases hrun
    exact ⟨[], rfl, rfl⟩
  | cons n nodes ih =>
    obtain ⟨middle, hmoves, hrest⟩ := buildNodes_cons_eq_ok hrun
    obtain ⟨new, hdeclared, hnames⟩ := ih hrest
    rcases hmoves.declares_or with ⟨header, body, r, rfl, -, rfl⟩ | ⟨hnone, hsame, -⟩
    · refine ⟨new ++ [(d.output.length, header.codeName)], ?_, ?_⟩
      · rw [hdeclared, List.append_assoc]
        rfl
      · rw [List.map_append, hnames]
        exact (List.reverse_cons).symm
    · refine ⟨new, hsame ▸ hdeclared, ?_⟩
      rw [hnames, declaredNames, declaredNames, routinesAmong, routinesAmong,
        List.filterMap_cons_none hnone]

/-- What is pending after some nodes, and declared by none of them, was pending before. -/
theorem lookup_of_buildNodes {name : String} {r : Routine}
    (hrun : buildNodes (Machine.step dialect) nodes d = .ok ((), d'))
    (hname : name ∉ declaredNames nodes) (hlookup : d'.fragment.pending.lookup name = some r) :
    d.fragment.pending.lookup name = some r := by
  induction nodes generalizing d with
  | nil =>
    cases hrun
    exact hlookup
  | cons n nodes ih =>
    obtain ⟨middle, hmoves, hrest⟩ := buildNodes_cons_eq_ok hrun
    rcases hmoves.declares_or with ⟨header, body, s, rfl, -, rfl⟩ | ⟨hnone, -, hpending⟩
    · change name ∉ header.codeName :: declaredNames nodes at hname
      obtain ⟨hother, hname⟩ := not_or.mp (List.mem_cons.not.mp hname)
      have hstill := ih hrest hname
      rwa [Draft.lookup_declare, if_neg hother] at hstill
    · rw [declaredNames, routinesAmong, List.filterMap_cons_none hnone] at hname
      exact hpending name r (ih hrest hname)

/-- The nodes of a region are among all nodes inside it, in the same order. -/
theorem sublist_nodesWithin (nodes : List Node) : nodes.Sublist (nodesWithin false nodes) := by
  induction nodes with
  | nil => exact .slnil
  | cons n nodes ih =>
    rw [nodesWithin, Node.within_eq, List.cons_append]
    exact (ih.trans (List.sublist_append_right _ _)).cons_cons n

/-- Without a pending cleanup no statement is dropped, so building nodes never leaves fewer
statements. -/
theorem length_output_of_buildNodes (hnone : d.fragment.cleanups = [])
    (hrun : buildNodes (Machine.step dialect) nodes d = .ok ((), d')) :
    d.output.length ≤ d'.output.length := by
  obtain ⟨new, houtput, -⟩ := (buildNodes_advances hrun).appends hnone
  rw [houtput, List.length_append]
  exact Nat.le_add_right _ _

end Nodes

/-- The node at an index of a region declares a routine, and before it the region has some number of
statements. -/
structure DeclaresAt (dialect : Dialect) (nodes : List Node) (f : Fragment) (i : Nat)
    (header : RoutineHeader) (body : List Node) (position : Nat) : Prop where
  node : nodes[i]? = some (.routine header body)
  before : ∃ d, buildNodes (Machine.step dialect) (nodes.take i) { fragment := f } = .ok ((), d) ∧
    d.output.length = position

/-- The node at an index of a region declares a routine that is still pending at the end of the
region: the number of statements before the node, and the routine. -/
inductive WaitsAt (dialect : Dialect) (nodes : List Node) (f : Fragment) (d : Draft) (i : Nat) :
    Nat × Routine → Prop
  | intro {header : RoutineHeader} {body : List Node} {position : Nat} {r : Routine} :
    DeclaresAt dialect nodes f i header body position →
    buildRoutine (Machine.step dialect) header body = .ok r →
    header.codeName ∉ declaredNames (nodes.drop (i + 1)) →
    d.fragment.pending.lookup header.codeName = some r →
    WaitsAt dialect nodes f d i (position, r)

/-- A relation holds of every two routines that nodes of a region declare, one after the other, and
that are both pending at the end of the region. -/
def OfEachTwo (dialect : Dialect) (nodes : List Node) (f : Fragment) (d : Draft)
    (R : Nat × Routine → Nat × Routine → Prop) : Prop :=
  ∀ i j x y, i < j → WaitsAt dialect nodes f d i x → WaitsAt dialect nodes f d j y → R x y

section Waiting

variable {dialect : Dialect} {nodes : List Node} {f : Fragment} {d : Draft} {i j : Nat}
  {header first second : RoutineHeader} {body firstBody secondBody : List Node} {p q : Nat}

/-- A list is made of an element, what is before it and what is after it. -/
theorem take_append_of_getElem? {α : Type} {xs : List α} {x : α} (hx : xs[i]? = some x) :
    xs.take i ++ x :: xs.drop (i + 1) = xs := by
  obtain ⟨hi, rfl⟩ := List.getElem?_eq_some_iff.mp hx
  rw [← List.drop_eq_getElem_cons hi, List.take_append_drop]

namespace DeclaresAt

/-- A node declares its routine whatever nodes come later. -/
theorem append (h : DeclaresAt dialect nodes f i header body p) (more : List Node) :
    DeclaresAt dialect (nodes ++ more) f i header body p := by
  obtain ⟨hi, -⟩ := List.getElem?_eq_some_iff.mp h.node
  refine ⟨(List.getElem?_append_left hi).trans h.node, ?_⟩
  rw [List.take_append_of_le_length (Nat.le_of_lt hi)]
  exact h.before

/-- The region before and after a node that declares a routine. -/
theorem split (h : DeclaresAt dialect nodes f i header body p)
    (hrun : buildNodes (Machine.step dialect) nodes { fragment := f } = .ok ((), d)) :
    ∃ d₁ r, buildNodes (Machine.step dialect) (nodes.take i) { fragment := f } = .ok ((), d₁) ∧
      d₁.output.length = p ∧ buildRoutine (Machine.step dialect) header body = .ok r ∧
      buildNodes (Machine.step dialect) (nodes.drop (i + 1)) (d₁.declare header r) =
        .ok ((), d) := by
  rw [← take_append_of_getElem? h.node] at hrun
  obtain ⟨d₁, r, hbefore, hroutine, hafter⟩ := buildNodes_routine_eq_ok hrun
  obtain ⟨d₁', hbefore', hposition⟩ := h.before
  cases hbefore.symm.trans hbefore'
  exact ⟨d₁, r, hbefore, hposition, hroutine, hafter⟩

/-- The declaration of a node is among those of the region, under the number of statements before
it. -/
theorem declared (h : DeclaresAt dialect nodes f i header body p)
    (hrun : buildNodes (Machine.step dialect) nodes { fragment := f } = .ok ((), d)) :
    ∃ d₁ new, buildNodes (Machine.step dialect) (nodes.take i) { fragment := f } = .ok ((), d₁) ∧
      d.declared = new ++ (p, header.codeName) :: d₁.declared ∧
      new.map (·.2) = (declaredNames (nodes.drop (i + 1))).reverse := by
  obtain ⟨d₁, r, hbefore, rfl, -, hafter⟩ := h.split hrun
  obtain ⟨new, hdeclared, hnames⟩ := buildNodes_declared hafter
  exact ⟨d₁, new, hbefore, hdeclared, hnames⟩

/-- An earlier node, seen from a later one. -/
theorem take (h : DeclaresAt dialect nodes f i header body p) (hij : i < j) :
    DeclaresAt dialect (nodes.take j) f i header body p := by
  refine ⟨?_, ?_⟩
  · rw [List.getElem?_take_of_lt hij]
    exact h.node
  · rw [List.take_take, Nat.min_eq_left (Nat.le_of_lt hij)]
    exact h.before

/-- What two nodes declare is declared in the order of the nodes. -/
theorem declared_pair (hfirst : DeclaresAt dialect nodes f i first firstBody p)
    (hsecond : DeclaresAt dialect nodes f j second secondBody q) (hij : i < j)
    (hrun : buildNodes (Machine.step dialect) nodes { fragment := f } = .ok ((), d)) :
    ∃ newer between older,
      d.declared = newer ++ (q, second.codeName) :: (between ++ (p, first.codeName) :: older) ∧
      (newer ++ (q, second.codeName) :: between).map (·.2) =
        (declaredNames (nodes.drop (i + 1))).reverse ∧
      newer.map (·.2) = (declaredNames (nodes.drop (j + 1))).reverse := by
  obtain ⟨d₁, new, hbefore, hdeclared, hnames⟩ := hfirst.declared hrun
  obtain ⟨d₂, newer, hbefore₂, hdeclared₂, hnewer⟩ := hsecond.declared hrun
  obtain ⟨d₁', between, hbefore', hbetween, -⟩ := (hfirst.take hij).declared hbefore₂
  rw [List.take_take, Nat.min_eq_left (Nat.le_of_lt hij)] at hbefore'
  cases hbefore.symm.trans hbefore'
  rw [hbetween] at hdeclared₂
  have hnew : new = newer ++ (q, second.codeName) :: between := by
    refine List.append_cancel_right (hdeclared.symm.trans (hdeclared₂.trans ?_))
    rw [List.append_assoc, List.cons_append]
  exact ⟨newer, between, d₁.declared, hdeclared₂, hnew ▸ hnames, hnewer⟩

end DeclaresAt

/-- What was declared in a region was declared by its nodes, in their order. -/
theorem pairwise_declared {R : Nat × String → Nat × String → Prop}
    (hrun : buildNodes (Machine.step dialect) nodes { fragment := f } = .ok ((), d))
    (hR : ∀ i j first firstBody p second secondBody q, i < j →
      DeclaresAt dialect nodes f i first firstBody p →
      DeclaresAt dialect nodes f j second secondBody q →
      R (p, first.codeName) (q, second.codeName)) :
    (∀ a ∈ d.declared, ∃ i header body, i < nodes.length ∧
      DeclaresAt dialect nodes f i header body a.1 ∧ header.codeName = a.2) ∧
    d.declared.reverse.Pairwise R := by
  -- from the end, as the last node is the one that declared last
  induction nodes using List.reverseRecOn generalizing d with
  | nil =>
    cases hrun
    exact ⟨List.forall_mem_nil _, .nil⟩
  | append_singleton nodes n ih =>
    obtain ⟨middle, hbefore, hn⟩ := buildNodes_append_eq_ok hrun
    obtain ⟨hmem, hordered⟩ := ih hbefore fun i j _ _ _ _ _ _ hij hfirst hsecond =>
      hR i j _ _ _ _ _ _ hij (hfirst.append [n]) (hsecond.append [n])
    obtain ⟨d', hmoves, hnil⟩ := buildNodes_cons_eq_ok hn
    cases hnil
    have hearlier : ∀ a ∈ middle.declared, ∃ i header body, i < (nodes ++ [n]).length ∧
        DeclaresAt dialect (nodes ++ [n]) f i header body a.1 ∧ header.codeName = a.2 := by
      intro a ha
      obtain ⟨i, header, body, hi, hdeclares, hname⟩ := hmem a ha
      rw [List.length_append]
      exact ⟨i, header, body, Nat.lt_add_right _ hi, hdeclares.append [n], hname⟩
    rcases hmoves.declares_or with ⟨header, body, r, rfl, -, rfl⟩ | ⟨-, hsame, -⟩
    · have hlast : DeclaresAt dialect (nodes ++ [.routine header body]) f nodes.length header body
          middle.output.length := by
        refine ⟨List.getElem?_concat_length, middle, ?_, rfl⟩
        rw [List.take_left]
        exact hbefore
      refine ⟨List.forall_mem_cons.mpr ⟨?_, hearlier⟩, ?_⟩
      · exact ⟨nodes.length, header, body, by simp, hlast, rfl⟩
      · change ((middle.output.length, header.codeName) :: middle.declared).reverse.Pairwise R
        rw [List.reverse_cons, List.pairwise_append]
        refine ⟨hordered, List.pairwise_singleton _ _, fun a ha b hb => ?_⟩
        obtain rfl := List.mem_singleton.mp hb
        obtain ⟨i, first, firstBody, hi, hfirst, hname⟩ := hmem a (List.mem_reverse.mp ha)
        have hR' := hR i nodes.length _ _ _ _ _ _ hi (hfirst.append _) hlast
        rwa [hname] at hR'
    · rw [hsame]
      exact ⟨hearlier, hordered⟩

namespace WaitsAt

variable {x y : Nat × Routine}

/-- A routine that is pending at the end, if the routines of the region have different names. -/
theorem of_lookup (hdeclares : DeclaresAt dialect nodes f i header body p)
    (hrun : buildNodes (Machine.step dialect) nodes { fragment := f } = .ok ((), d))
    (hdistinct : (declaredNames nodes).Nodup) {r : Routine}
    (hlookup : d.fragment.pending.lookup header.codeName = some r) :
    WaitsAt dialect nodes f d i (p, r) := by
  obtain ⟨d₁, s, -, -, hroutine, hafter⟩ := hdeclares.split hrun
  have hlast : header.codeName ∉ declaredNames (nodes.drop (i + 1)) := by
    rw [← take_append_of_getElem? hdeclares.node, declaredNames_append] at hdistinct
    exact (List.nodup_cons.mp (List.nodup_append.mp hdistinct).2.1).1
  have hsame := lookup_of_buildNodes hafter hlast hlookup
  rw [Draft.lookup_declare, if_pos rfl] at hsame
  cases hsame
  exact .intro hdeclares hroutine hlast hlookup

/-- The routine of a node waits if one of its name is pending at the end. -/
theorem of_isSome (hnode : nodes[i]? = some (.routine header body))
    (hrun : buildNodes (Machine.step dialect) nodes { fragment := f } = .ok ((), d))
    (hdistinct : (declaredNames nodes).Nodup)
    (hpending : (d.fragment.pending.lookup header.codeName).isSome = true) :
    ∃ x, WaitsAt dialect nodes f d i x := by
  obtain ⟨r, hlookup⟩ := Option.isSome_iff_exists.mp hpending
  have hsplit := hrun
  rw [← take_append_of_getElem? hnode] at hsplit
  obtain ⟨d₁, -, hbefore, -, -⟩ := buildNodes_routine_eq_ok hsplit
  exact ⟨_, of_lookup ⟨hnode, d₁, hbefore, rfl⟩ hrun hdistinct hlookup⟩

/-- Two routines that are pending are so in the order of their nodes. -/
theorem sublist_waiting (hx : WaitsAt dialect nodes f d i x) (hy : WaitsAt dialect nodes f d j y)
    (hij : i < j)
    (hrun : buildNodes (Machine.step dialect) nodes { fragment := f } = .ok ((), d)) :
    [x, y].Sublist d.waiting := by
  obtain @⟨first, _, p, r, hfirst, -, -, hr⟩ := hx
  obtain @⟨second, _, q, s, hsecond, -, -, hs⟩ := hy
  obtain ⟨newer, between, older, hdeclared, -, -⟩ := hfirst.declared_pair hsecond hij hrun
  have hpair : [(q, second.codeName), (p, first.codeName)].Sublist d.declared := by
    rw [hdeclared]
    refine List.Sublist.trans ?_ (List.sublist_append_right _ _)
    exact (List.singleton_sublist.mpr (List.mem_append_right _ List.mem_cons_self)).cons_cons _
  have hordered : [(p, first.codeName), (q, second.codeName)].Sublist d.declared.reverse :=
    hpair.reverse
  have hwaiting := hordered.filterMap fun a => (d.fragment.pending.lookup a.2).map (a.1, ·)
  simp only [List.filterMap_cons, hr, hs, Option.map_some, List.filterMap_nil] at hwaiting
  exact hwaiting

/-- Two routines that are pending are different. -/
theorem ne (hx : WaitsAt dialect nodes f d i x) (hy : WaitsAt dialect nodes f d j y)
    (hij : i < j)
    (hrun : buildNodes (Machine.step dialect) nodes { fragment := f } = .ok ((), d)) :
    x.2 ≠ y.2 := by
  obtain @⟨first, firstBody, p, r, hfirst, hr, hlast, -⟩ := hx
  obtain @⟨second, secondBody, q, s, hsecond, hs, -, -⟩ := hy
  obtain ⟨newer, between, older, -, hnames, -⟩ := hfirst.declared_pair hsecond hij hrun
  rintro (rfl : r = s)
  have hfirstName := codeName_of_buildRoutine (buildRegion_effect dialect firstBody) hr
  have hsecondName := codeName_of_buildRoutine (buildRegion_effect dialect secondBody) hs
  refine hlast ?_
  rw [← hfirstName, hsecondName, ← List.mem_reverse, ← hnames, List.map_append]
  exact List.mem_append_right _ List.mem_cons_self

/-- Two routines that are pending are declared in the order of their nodes if the position of the
first one is not greater than that of the second one, and there are as many statements. -/
theorem sublist_close (hx : WaitsAt dialect nodes f d i x) (hy : WaitsAt dialect nodes f d j y)
    (hij : i < j) (hrun : buildNodes (Machine.step dialect) nodes { fragment := f } = .ok ((), d))
    (hposition : x.1 ≤ min y.1 d.output.length) :
    [.routine x.2, .routine y.2].Sublist d.close.1 := by
  obtain ⟨hfirst, -, hlast, hr⟩ := hx
  obtain ⟨hsecond, -, hlast', hs⟩ := hy
  obtain ⟨newer, between, older, hdeclared, hnames, hnewer⟩ :=
    hfirst.declared_pair hsecond hij hrun
  obtain ⟨g, ss, declared⟩ := d
  cases hdeclared
  refine Draft.sublist_close ?_ ?_ hr hs hposition
  · rwa [hnames, List.mem_reverse]
  · rwa [hnewer, List.mem_reverse]

/-- While no cleanup is pending, a later position is not smaller, and there are as many
statements. -/
theorem position_le (hx : WaitsAt dialect nodes f d i x) (hy : WaitsAt dialect nodes f d j y)
    (hij : i < j) (hrun : buildNodes (Machine.step dialect) nodes { fragment := f } = .ok ((), d))
    (hnone : f.cleanups = []) : x.1 ≤ min y.1 d.output.length := by
  obtain ⟨hfirst, -, -, -⟩ := hx
  obtain ⟨hsecond, -, -, -⟩ := hy
  obtain ⟨d₂, s, hbefore₂, rfl, -, hafter₂⟩ := hsecond.split hrun
  obtain ⟨d₁, r, hbefore, rfl, -, hafter⟩ := (hfirst.take hij).split hbefore₂
  have hnone₁ : d₁.fragment.cleanups = [] := (buildNodes_advances hbefore).cleanups.trans hnone
  have hnone₂ : d₂.fragment.cleanups = [] := (buildNodes_advances hbefore₂).cleanups.trans hnone
  have hgrows := length_output_of_buildNodes ((d₁.cleanups_declare r).trans hnone₁) hafter
  have hgrows₂ := length_output_of_buildNodes ((d₂.cleanups_declare s).trans hnone₂) hafter₂
  exact Nat.le_min.mpr ⟨hgrows, Nat.le_trans hgrows hgrows₂⟩

/-- If the routines within a region have different names, none that is pending is declared by the
statements of the region yet. -/
theorem notMem_output (hx : WaitsAt dialect nodes f d i x)
    (hrun : buildNodes (Machine.step dialect) nodes { fragment := f } = .ok ((), d))
    (hdistinct : (declaredNames (nodesWithin false nodes)).Nodup) :
    .routine x.2 ∉ d.output := by
  intro hmem
  obtain @⟨header, body, _, r, hdeclares, hroutine, -, -⟩ := hx
  obtain ⟨d₁, s, hbefore, -, -, hafter⟩ := hdeclares.split hrun
  have hname := codeName_of_buildRoutine (buildRegion_effect dialect body) hroutine
  have hr : r ∈ declarations d.output := by
    rw [declarations_eq]
    exact List.mem_flatMap.mpr ⟨_, hmem, List.mem_singleton_self r⟩
  have hnames : declaredNames (nodesWithin false nodes) =
      declaredNames (nodesWithin false (nodes.take i)) ++
        header.codeName :: declaredNames (nodesWithin false (nodes.drop (i + 1))) := by
    conv_lhs => rw [← take_append_of_getElem? hdeclares.node]
    rw [nodesWithin_append, declaredNames_append]
    rfl
  rw [hnames] at hdistinct
  obtain ⟨-, hlater, hearlier⟩ := List.nodup_append.mp hdistinct
  -- the statements declare only what is declared within the nodes before and after
  rcases (buildNodes_advances hafter).covered r hr with hr | hr
  · have hr := (buildNodes_advances hbefore).covered r hr
    exact hearlier _ (hr.resolve_left List.not_mem_nil) _ List.mem_cons_self hname
  · exact (List.nodup_cons.mp hlater).1 (hname ▸ hr)

end WaitsAt

/-- What is pending at the end of a region was declared by its nodes, in their order. -/
theorem pairwise_waiting {R : Nat × Routine → Nat × Routine → Prop}
    (hrun : buildNodes (Machine.step dialect) nodes { fragment := f } = .ok ((), d))
    (hdistinct : (declaredNames nodes).Nodup) (hR : OfEachTwo dialect nodes f d R) :
    (∀ x ∈ d.waiting, ∃ i, WaitsAt dialect nodes f d i x) ∧ d.waiting.Pairwise R := by
  have hordered := pairwise_declared (R := fun a b =>
    ∀ x, (d.fragment.pending.lookup a.2).map (a.1, ·) = some x →
      ∀ y, (d.fragment.pending.lookup b.2).map (b.1, ·) = some y → R x y) hrun ?_
  · refine ⟨fun x hx => ?_, List.pairwise_filterMap.mpr ?_⟩
    · obtain ⟨a, ha, hx⟩ := List.mem_filterMap.mp hx
      obtain ⟨r, hlookup, rfl⟩ := Option.map_eq_some_iff.mp hx
      obtain ⟨i, header, body, -, hdeclares, hname⟩ := hordered.1 a (List.mem_reverse.mp ha)
      rw [← hname] at hlookup
      exact ⟨i, .of_lookup hdeclares hrun hdistinct hlookup⟩
    · exact hordered.2
  · intro i j first firstBody p second secondBody q hij hfirst hsecond x hx y hy
    obtain ⟨r, hr, rfl⟩ := Option.map_eq_some_iff.mp hx
    obtain ⟨s, hs, rfl⟩ := Option.map_eq_some_iff.mp hy
    exact hR i j _ _ hij (.of_lookup hfirst hrun hdistinct hr)
      (.of_lookup hsecond hrun hdistinct hs)

/-- If the routines within a region have different names, and all that are pending are declared in
the order of their nodes, then no position but the last one is behind the statements, and none is
greater than a later one. -/
theorem OfEachTwo.positions
    (hordered : OfEachTwo dialect nodes f d fun x y =>
      [.routine x.2, .routine y.2].Sublist d.close.1)
    (hrun : buildNodes (Machine.step dialect) nodes { fragment := f } = .ok ((), d))
    (hdistinct : (declaredNames (nodesWithin false nodes)).Nodup) :
    OfEachTwo dialect nodes f d fun x y => x.1 ≤ min y.1 d.output.length := by
  have hnames : (declaredNames nodes).Nodup :=
    hdistinct.sublist (((sublist_nodesWithin nodes).filterMap _).map _)
  have hdeclared : d.names.Nodup := by
    obtain ⟨new, hnew, hreverse⟩ := buildNodes_declared hrun
    rw [Draft.names, hnew, List.append_nil, hreverse]
    exact List.nodup_reverse.mpr hnames
  have hother : OfEachTwo dialect nodes f d fun x y => Stmt.routine x.2 ≠ .routine y.2 := by
    intro i j x y hij hx hy hsame
    exact hx.ne hy hij hrun (Stmt.routine.inj hsame)
  obtain ⟨hwaits, hplaced⟩ := pairwise_waiting hrun hnames hordered
  obtain ⟨-, hothers⟩ := pairwise_waiting hrun hnames hother
  rw [Draft.close_eq_placeAll hdeclared] at hplaced
  have hpositions : (d.waiting.map fun x => (x.1, Stmt.routine x.2)).Pairwise
      fun p q => p.1 ≤ min q.1 d.output.length := by
    refine positions_of_pairwise_sublist ?_ ?_ (List.pairwise_map.mpr hplaced)
    · rw [List.map_map]
      exact List.pairwise_map.mpr hothers
    · intro p hp
      obtain ⟨x, hx, rfl⟩ := List.mem_map.mp hp
      obtain ⟨i, hi⟩ := hwaits x hx
      exact hi.notMem_output hrun hdistinct
  intro i j x y hij hx hy
  exact List.pairwise_iff_forall_sublist.mp (List.pairwise_map.mp hpositions)
    (hx.sublist_waiting hy hij hrun)

end Waiting

/-- Routines that are still pending at the end of a region are declared in the order of their nodes,
if no cleanup is pending around the region. In any case two of them are, if the region had not more
statements before the first node than before the second one, nor than it has at the end. If the
routines within the region have different names, all are declared in the order of their nodes
exactly if that holds of every two. -/
theorem pending_routines_in_order_iff {dialect : Dialect} {nodes : List Node} {f f' : Fragment}
    {ss : List Stmt} (hregion : buildRegion (Machine.step dialect) nodes f = .ok (ss, f')) :
    ∃ d, buildNodes (Machine.step dialect) nodes { fragment := f } = .ok ((), d) ∧
      OfEachTwo dialect nodes f d (fun x y => x.1 ≤ min y.1 d.output.length →
        [.routine x.2, .routine y.2].Sublist ss) ∧
      (f.cleanups = [] →
        OfEachTwo dialect nodes f d fun x y => [.routine x.2, .routine y.2].Sublist ss) ∧
      ((declaredNames (nodesWithin false nodes)).Nodup →
        (OfEachTwo dialect nodes f d (fun x y => [.routine x.2, .routine y.2].Sublist ss) ↔
          OfEachTwo dialect nodes f d fun x y => x.1 ≤ min y.1 d.output.length)) := by
  obtain ⟨d, hrun, hclose⟩ := buildRegion_eq_ok hregion
  obtain rfl : d.close.1 = ss := congrArg Prod.fst hclose
  refine ⟨d, hrun, ?_, fun hnone => ?_, fun hdistinct => ⟨?_, ?_⟩⟩
  · intro i j x y hij hx hy hposition
    exact hx.sublist_close hy hij hrun hposition
  · intro i j x y hij hx hy
    exact hx.sublist_close hy hij hrun (hx.position_le hy hij hrun hnone)
  · intro hordered
    exact hordered.positions hrun hdistinct
  · intro hpositions i j x y hij hx hy
    exact hx.sublist_close hy hij hrun (hpositions i j x y hij hx hy)

namespace Sample

/-- Calls of functions, whose results are dropped. -/
def callsOf (names : List String) : Node :=
  .block ⟨0, names.flatMap fun name => [.call name 0, .plain .popDelete]⟩

/-- The declaration of a function that does nothing. -/
def emptyFunction (name : String) : Node :=
  .routine ⟨"gml_Script_" ++ name, some name, false, 0⟩ [.block ⟨0, [.plain .exit]⟩]

/-- Code that makes some calls, declares a function, leaves, and declares another function. -/
def leavesBetween (names : List String) : List Node :=
  [callsOf names, emptyFunction "first", .block ⟨0, [.plain .exit]⟩, emptyFunction "second"]

/-- A fragment with a cleanup of two calls pending. -/
def guardedFragment : Fragment :=
  Fragment.pushCleanup {} (["close", "flush"].map fun name => .eval (.ofShape (.call name [])))

/-- A script that has the code in a region with the cleanup. -/
def guardedScript (names : List String) : Entry where
  name := "gml_GlobalScript_setup"
  body := [.guarded (leavesBetween names) (some [callsOf ["close", "flush"]])]

/-- The two functions of the code wait at the positions that building the code gives. -/
theorem leavesBetween_waitsAt (names : List String) (p q length : Nat)
    (hruns : ((buildNodes (Machine.step Version.current.dialect) (leavesBetween names)
      { fragment := guardedFragment }).toOption.map fun result =>
        (result.2.waiting.map (·.1), result.2.output.length,
          (result.2.fragment.pending.lookup "gml_Script_first").isSome &&
            (result.2.fragment.pending.lookup "gml_Script_second").isSome)) =
      some ([p, q], length, true)) :
    ∃ d r s, buildNodes (Machine.step Version.current.dialect) (leavesBetween names)
        { fragment := guardedFragment } = .ok ((), d) ∧ d.output.length = length ∧
      WaitsAt Version.current.dialect (leavesBetween names) guardedFragment d 1 (p, r) ∧
      WaitsAt Version.current.dialect (leavesBetween names) guardedFragment d 3 (q, s) := by
  cases hrun : buildNodes (Machine.step Version.current.dialect) (leavesBetween names)
      { fragment := guardedFragment } with
  | error fault =>
    rw [hrun] at hruns
    cases hruns
  | ok result =>
    obtain ⟨⟨⟩, d⟩ := result
    rw [hrun] at hruns
    simp only [Except.toOption, Option.map_some, Option.some.injEq, Prod.mk.injEq,
      Bool.and_eq_true] at hruns
    obtain ⟨hpositions, hlength, hfirst, hsecond⟩ := hruns
    have hdistinct : (declaredNames (leavesBetween names)).Nodup := by
      change ["gml_Script_first", "gml_Script_second"].Nodup
      decide
    obtain ⟨⟨p', r⟩, hr⟩ := WaitsAt.of_isSome (i := 1) rfl hrun hdistinct hfirst
    obtain ⟨⟨q', s⟩, hs⟩ := WaitsAt.of_isSome (i := 3) rfl hrun hdistinct hsecond
    have hpair := (hr.sublist_waiting hs (by decide) hrun).map (·.1)
    rw [hpositions] at hpair
    cases hpair.eq_of_length rfl
    exact ⟨d, r, s, rfl, hlength, hr, hs⟩

end Sample

/-- With a cleanup pending and no copy of it dropped, the two functions are declared in order. -/
theorem pending_routines_in_order_iff_guarded :
    ∃ ss f' d x y,
      buildRegion (Machine.step Version.current.dialect) (Sample.leavesBetween ["close"])
        Sample.guardedFragment = .ok (ss, f') ∧
      WaitsAt Version.current.dialect (Sample.leavesBetween ["close"]) Sample.guardedFragment d 1
        x ∧
      WaitsAt Version.current.dialect (Sample.leavesBetween ["close"]) Sample.guardedFragment d 3
        y ∧
      [.routine x.2, .routine y.2].Sublist ss := by
  obtain ⟨d, r, s, hrun, hlength, hr, hs⟩ :=
    Sample.leavesBetween_waitsAt ["close"] 1 2 2 (by decide +kernel)
  have hregion := buildRegion_of_buildNodes hrun
  obtain ⟨d', hrun', hordered, -⟩ := pending_routines_in_order_iff hregion
  cases hrun.symm.trans hrun'
  refine ⟨d.close.1, d.close.2, d, _, _, hregion, hr, hs, ?_⟩
  refine hordered 1 3 _ _ (by decide) hr hs ?_
  rw [hlength]
  exact Nat.le_succ 1

/-- Two functions are declared in the wrong order after the copy of a cleanup was dropped between
them, and so they are in the text. -/
theorem pending_routines_swapped :
    (∃ ss f' d,
      buildRegion (Machine.step Version.current.dialect) (Sample.leavesBetween ["close", "flush"])
        Sample.guardedFragment = .ok (ss, f') ∧
      buildNodes (Machine.step Version.current.dialect) (Sample.leavesBetween ["close", "flush"])
        { fragment := Sample.guardedFragment } = .ok ((), d) ∧
      ¬ OfEachTwo Version.current.dialect (Sample.leavesBetween ["close", "flush"])
        Sample.guardedFragment d fun x y => [.routine x.2, .routine y.2].Sublist ss) ∧
    decompile (Sample.guardedScript ["close", "flush"]) =
      .ok ("try \x7b\n    exit;\n\n    function second() \x7b\n        exit;\n    \x7d\n\n" ++
        "    function first() \x7b\n        exit;\n    \x7d\n" ++
        "\x7d finally \x7b\n    close();\n    flush();\n\x7d\n") := by
  refine ⟨?_, by decide +kernel⟩
  obtain ⟨d, r, s, hrun, hlength, hr, hs⟩ :=
    Sample.leavesBetween_waitsAt ["close", "flush"] 2 1 1 (by decide +kernel)
  refine ⟨d.close.1, d.close.2, d, buildRegion_of_buildNodes hrun, hrun, fun hordered => ?_⟩
  have hpositions := hordered.positions hrun (by decide +kernel) 1 3 _ _ (by decide) hr hs
  rw [hlength] at hpositions
  exact Nat.not_succ_le_self 1 hpositions

end GmlDecompiler

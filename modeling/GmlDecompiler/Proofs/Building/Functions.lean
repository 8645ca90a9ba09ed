import GmlDecompiler.Proofs.Building.Parts

/-!
# Functions and statements throughout a tree

A tree has functions in it at any depth: routines that are declared, routines that are values, and
the bodies of struct literals. In a tree that was built each of them was built from a routine of the
code. The statements of one function that is built are its own apart from those of the functions
nested in it: the local variables are declared by the first one and by no other, and jumps are
inside of loops.
-/

namespace GmlDecompiler

/-- Every statement in a statement, outside of the functions nested in it, has a property where it
stands. `looped` tells whether a loop of the same function is around it. -/
inductive Stmt.Throughout (P : Bool → Stmt → Prop) : Bool → Stmt → Prop
  | intro {looped : Bool} {s : Stmt} : P looped s →
    (∀ t ∈ s.inner, t.Throughout P (looped || s.isLoop)) → Stmt.Throughout P looped s

mutual

/-- Every function in an expression, at any depth, has a property. -/
inductive Expr.AllFunctions (P : Routine → Prop) : Expr → Prop
  | intro {e : Expr} : (∀ part ∈ e.shape.parts, part.AllFunctions P) →
    (∀ r, e.shape.routine? = some r → P r) →
    (∀ r, e.shape.routine? = some r → r.AllFunctions P) → Expr.AllFunctions P e

/-- Every function in a statement, at any depth, has a property. -/
inductive Stmt.AllFunctions (P : Routine → Prop) : Stmt → Prop
  | intro {s : Stmt} : (∀ e ∈ s.exprs, e.AllFunctions P) → (∀ t ∈ s.inner, t.AllFunctions P) →
    (∀ r, s.routine? = some r → P r) →
    (∀ r, s.routine? = some r → r.AllFunctions P) → Stmt.AllFunctions P s

/-- Every function inside a routine, at any depth, has a property: those in its body, in the call of
its parent constructor, in its default values, and in the values of its struct arguments. -/
inductive Routine.AllFunctions (P : Routine → Prop) : Routine → Prop
  | intro {r : Routine} : (∀ s ∈ r.body.statements, s.AllFunctions P) →
    (∀ e, r.fragment.parentCall = some e → e.AllFunctions P) →
    (∀ p ∈ r.defaults, p.2.AllFunctions P) →
    (∀ e ∈ r.fragment.structArguments.getD [], e.AllFunctions P) → Routine.AllFunctions P r

end

section AllFunctions

variable {P : Routine → Prop} {e : Expr} {s : Stmt} {r : Routine}

/-- The function that an expression holds has the property, and so have the functions inside it. -/
theorem Expr.AllFunctions.routine (he : e.AllFunctions P) (hr : e.shape.routine? = some r) :
    P r ∧ r.AllFunctions P := by
  cases he with
  | intro _ hown hinside => exact ⟨hown r hr, hinside r hr⟩

/-- The functions in the expressions of a statement have the property. -/
theorem Stmt.AllFunctions.exprs (hs : s.AllFunctions P) : ∀ e ∈ s.exprs, e.AllFunctions P := by
  cases hs with
  | intro hexprs _ _ _ => exact hexprs

/-- The functions in the statements inside a statement have the property. -/
theorem Stmt.AllFunctions.inner (hs : s.AllFunctions P) : ∀ t ∈ s.inner, t.AllFunctions P := by
  cases hs with
  | intro _ hinner _ _ => exact hinner

/-- A statement that declares no routine has the functions of its parts. -/
theorem Stmt.AllFunctions.of_parts (hroutine : s.routine? = none)
    (hexprs : ∀ e ∈ s.exprs, e.AllFunctions P) (hinner : ∀ t ∈ s.inner, t.AllFunctions P) :
    s.AllFunctions P := by
  refine .intro hexprs hinner ?_ ?_
  · rw [hroutine]
    exact nofun
  · rw [hroutine]
    exact nofun

/-- The function that a statement declares has the property, and so have the functions inside it. -/
theorem Stmt.AllFunctions.routine (hs : s.AllFunctions P) (hr : s.routine? = some r) :
    P r ∧ r.AllFunctions P := by
  cases hs with
  | intro _ _ hown hinside => exact ⟨hown r hr, hinside r hr⟩

/-- The functions in the body of a routine have the property. -/
theorem Routine.AllFunctions.body (hr : r.AllFunctions P) :
    ∀ s ∈ r.body.statements, s.AllFunctions P := by
  cases hr with
  | intro hbody _ _ _ => exact hbody

/-- The functions in the call of the parent constructor have the property. -/
theorem Routine.AllFunctions.parentCall (hr : r.AllFunctions P) :
    ∀ e, r.fragment.parentCall = some e → e.AllFunctions P := by
  cases hr with
  | intro _ hparent _ _ => exact hparent

/-- The functions in the default values of a routine have the property. -/
theorem Routine.AllFunctions.defaults (hr : r.AllFunctions P) :
    ∀ p ∈ r.defaults, p.2.AllFunctions P := by
  cases hr with
  | intro _ _ hdefaults _ => exact hdefaults

/-- The functions in the values of the struct arguments of a routine have the property. -/
theorem Routine.AllFunctions.values (hr : r.AllFunctions P) :
    ∀ e ∈ r.fragment.structArguments.getD [], e.AllFunctions P := by
  cases hr with
  | intro _ _ _ hvalues => exact hvalues

end AllFunctions

/-- The property of the statements may be described more loosely. The induction follows the
statements inside each other. -/
theorem Stmt.Throughout.mono {P Q : Bool → Stmt → Prop} (hPQ : ∀ looped s, P looped s → Q looped s)
    {looped : Bool} {s : Stmt} (hs : s.Throughout P looped) : s.Throughout Q looped := by
  induction hs with
  | intro hP _ ih => exact .intro (hPQ _ _ hP) ih

/-- Where statements stand is passed on by the parts of a tree. -/
theorem inherited_throughout :
    Inherited (fun _ => True) (Stmt.Throughout Stmt.Fits) (fun _ => True) (fun _ => True) where
  expr_iff _ := by simp
  literal_of_declared _ _ _ _ := trivial
  stmt _ _ hfits _ hinner _ := .intro hfits hinner
  static looped s hs := by
    cases s with
    | assign target value => exact .intro ⟨rfl, nofun⟩ (List.forall_mem_nil _)
    | block | eval | static | ret | exit | leave | again | branch | loop | guarded | locals
    | routine | enum => exact hs

/-- What is known of all functions in a tree is passed on by its parts, unless it is about the
values of struct literals. -/
theorem inherited_allFunctions {P : Routine → Prop}
    (hvalues : ∀ r values, P r → P (r.withValues values)) :
    Inherited (Expr.AllFunctions P) (fun _ s => s.AllFunctions P)
      (fun r => P r ∧ r.AllFunctions P) (fun r => P r ∧ r.AllFunctions P) where
  expr_iff e := by
    constructor
    · intro he
      refine ⟨?_, fun r hr => ?_, fun r hr => ?_⟩
      · cases he with
        | intro hparts _ _ => exact hparts
      · exact he.routine (by rw [hr]; rfl)
      · exact he.routine (by rw [hr]; rfl)
    · rintro ⟨hparts, hdeclared, hliteral⟩
      have hboth : ∀ r, e.shape.routine? = some r → P r ∧ r.AllFunctions P := by
        intro r hr
        cases hshape : e.shape with
        | routine other =>
          rw [hshape] at hr
          cases hr
          exact hdeclared _ hshape
        | struct other =>
          rw [hshape] at hr
          cases hr
          exact hliteral _ hshape
        | int16 | int32 | int64 | double | string | boolean | keyword | function | constant | access
        | unary | binary | call | callValue | construct | chain =>
          rw [hshape] at hr
          cases hr
      exact .intro hparts (fun r hr => (hboth r hr).1) fun r hr => (hboth r hr).2
  literal_of_declared r values hr hgiven := by
    obtain ⟨hP, hinside⟩ := hr
    exact ⟨hvalues r values hP, .intro hinside.body hinside.parentCall hinside.defaults hgiven⟩
  stmt looped s _ hexprs hinner hroutine :=
    .intro hexprs hinner (fun r hr => (hroutine r hr).1) fun r hr => (hroutine r hr).2
  static looped s hs := by
    cases s with
    | assign target value =>
      exact .intro hs.exprs (List.forall_mem_nil _) nofun nofun
    | block | eval | static | ret | exit | leave | again | branch | loop | guarded | locals
    | routine | enum => exact hs

section Built

variable {dialect : Dialect}

/-- In a routine that was built only the first statement declares local variables, and jumps are
inside of loops. -/
theorem buildRoutine_throughout {header : RoutineHeader} {body : List Node} {r : Routine}
    (hrun : buildRoutine (Machine.step dialect) header body = .ok r) :
    ∃ rest, r.body.statements = localsDeclaration r.fragment.locals ++ rest ∧
      ∀ s ∈ rest, s.Throughout Stmt.Fits false := by
  obtain ⟨rest, hstatements, hrest, -⟩ :=
    inherited_throughout.buildRoutine_keeps (fun _ _ _ _ => trivial) hrun
  exact ⟨rest, hstatements, hrest⟩

section AllFunctions

variable {P : Routine → Prop} (hvalues : ∀ r values, P r → P (r.withValues values))
include hvalues

/-- Every function in a routine that was built has a property, if every routine that is built from
its code has it. -/
theorem buildRoutine_allFunctions {sources : List (RoutineHeader × List Node)}
    (hbuilt : ∀ p ∈ sources, ∀ r, buildRoutine (Machine.step dialect) p.1 p.2 = .ok r → P r)
    (body : List Node) :
    routinesAmong (nodesWithin true body) ⊆ sources →
      ∀ header r, buildRoutine (Machine.step dialect) header body = .ok r → r.AllFunctions P := by
  induction body using fragments_induction with
  | step body ih =>
    intro hsources header r hrun
    have hroutines : ∀ p ∈ routinesAmong (nodesWithin false body), ∀ x,
        buildRoutine (Machine.step dialect) p.1 p.2 = .ok x → P x ∧ x.AllFunctions P := by
      intro p hp x hx
      have hdeep := ((nodesWithin_false_sublist body).filterMap Node.routine?).subset hp
      have hinside := (nodesWithin_sublist_of_mem_routinesAmong hdeep).filterMap Node.routine?
      refine ⟨hbuilt p (hsources hdeep) x hx, ?_⟩
      exact ih p hp (List.Subset.trans hinside.subset hsources) p.1 x hx
    obtain ⟨rest, hstatements, hrest, hf⟩ :=
      (inherited_allFunctions hvalues).buildRoutine_keeps hroutines hrun
    refine .intro ?_ hf.parentCall ?_ ?_
    · rw [hstatements]
      refine List.forall_mem_append.mpr ⟨fun s hs => ?_, hrest⟩
      rw [eq_of_mem_localsDeclaration hs]
      exact .intro (List.forall_mem_nil _) (List.forall_mem_nil _) nofun nofun
    · rw [defaults_buildRoutine hrun]
      exact List.forall_mem_nil _
    · rw [hf.structArguments]
      exact List.forall_mem_nil _

/-- Every function in the tree of an entry has a property, if every routine that is built from its
code has it. -/
theorem Entry.build_allFunctions {entry : Entry} {block : Block} {f : Fragment}
    (hbuilt : ∀ p ∈ routinesAmong (nodesWithin true entry.body), ∀ r,
      buildRoutine (Machine.step dialect) p.1 p.2 = .ok r → P r)
    (hbuild : entry.build dialect = .ok (block, f)) : ∀ s ∈ block.statements, s.AllFunctions P := by
  obtain ⟨r, hrun, hstatements, -⟩ := entry.build_eq_ok hbuild
  rw [← hstatements]
  exact (buildRoutine_allFunctions hvalues hbuilt entry.body (List.Subset.refl _) _ r hrun).body

end AllFunctions

end Built

end GmlDecompiler

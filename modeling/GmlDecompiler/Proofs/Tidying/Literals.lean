import GmlDecompiler.Proofs.Tidying.Settling

/-!
# Struct literals

The body of a struct literal is tidied in a scope of its own that has values for arguments. A value
was tidied before, once and in the scope around the literal, and it takes the place of a variable as
it is. A function in the body has a scope of its own again. That one has no values, so that an
argument in it is an argument of the function.
-/

namespace GmlDecompiler

/-- What a scope does to variables. One whose argument has a value becomes that value, and nothing
is noted; any other one stays an access of the same variable. -/
structure Fragment.Substitutes (c : Config) (g : Fragment) (values : List Expr) : Prop where
  filled : ∀ {e v : Expr} {a : Access} {index : Nat}, e.shape = .access a →
    a.argumentIndex? = some index → values[index]? = some v →
    (∀ outer, e.tidy c (g :: outer) = .ok (v, g :: outer)) ∧
      ∀ nested noted e', e.Becomes c nested g noted e' ↔ noted = [] ∧ e' = v
  kept : ∀ {e e' : Expr} {a : Access} {nested : Bool} {noted : List Nat}, e.shape = .access a →
    (∀ index, a.argumentIndex? = some index → values[index]? = none) →
    e.Becomes c nested g noted e' →
    ∃ a', e' = { e with shape := .access a' } ∧ a'.target = a.target

/-- Every scope substitutes the values that it has. -/
theorem Fragment.substitutes (c : Config) (g : Fragment) :
    g.Substitutes c (g.structArguments.getD []) where
  filled := by
    rintro ⟨shape, duplicated, grouped, slot⟩ v a index rfl hindex hv
    obtain ⟨values, hvalues⟩ : ∃ values, g.structArguments = some values := by
      cases hnone : g.structArguments with
      | none =>
        rw [hnone] at hv
        cases hv
      | some values => exact ⟨values, rfl⟩
    rw [hvalues, Option.getD_some] at hv
    refine ⟨fun outer => ?_, fun nested noted e' => ⟨fun hbecomes => ?_, ?_⟩⟩
    · have hvalue : (Shape.access a).substitute? (g :: outer) = some v :=
        Shape.substitute?_eq_some_iff.mpr ⟨a, index, values, rfl, hindex, hvalues, hv⟩
      simp only [Expr.tidy, hvalue, bind, StateT.bind, Except.bind, pure_apply, get_apply]
    · cases hbecomes with
      | value hindex' hvalues' hv' =>
        cases hindex.symm.trans hindex'
        cases hvalues.symm.trans hvalues'
        exact ⟨rfl, Option.some.inj (hv'.symm.trans hv)⟩
      | kept hnothing _ =>
        cases (hnothing a index values rfl hindex hvalues).symm.trans hv
    · rintro ⟨rfl, rfl⟩
      exact .value hindex hvalues hv
  kept := by
    rintro ⟨shape, duplicated, grouped, slot⟩ e' a nested noted rfl hnothing hbecomes
    cases hbecomes with
    | value hindex hvalues hv =>
      have hnone := hnothing _ hindex
      rw [hvalues, Option.getD_some, hv] at hnone
      cases hnone
    | kept _ hshape =>
      cases hshape with
      | atom hatom => cases hatom
      | access ha =>
        cases ha with
        | intro _ _ hsame => exact ⟨_, rfl, by rw [hsame]⟩

/-- There are as many expressions as before. -/
theorem ExprsBecome.length_eq {c : Config} {nested : Bool} {g : Fragment} :
    ∀ {es es' : List Expr} {noted : List Nat}, ExprsBecome c nested g es noted es' →
      es'.length = es.length
  | [], _, _, .nil => rfl
  | _ :: _, _, _, .cons _ hes => congrArg (· + 1) hes.length_eq

/-- A block keeps its braces. -/
theorem Block.Becomes.braced_eq {c : Config} {nested : Bool} {g : Fragment} {block block' : Block}
    {noted : List Nat} (hbecomes : block.Becomes c nested g noted block') :
    block' = ⟨block'.statements, block.braced⟩ := by
  cases hbecomes with
  | intro => rfl

namespace Routine

/-- The own scope of a routine with values for its struct arguments, once arguments were noted in
it. -/
def scope (c : Config) (r : Routine) (values : Option (List Expr)) (noted : List Nat) : Fragment :=
  c.noteAll true { r.fragment with structArguments := values } noted

/-- The parts of a routine are tidied in its own scope. Of the arguments, `first` were noted in the
body and `second` in the call of the parent constructor. -/
structure TidiedInside (c : Config) (r : Routine) (values : Option (List Expr))
    (first second : List Nat) (r' : Routine) : Prop where
  body : Block.Becomes c true (r.scope c values (first ++ second)) r.body first
    ⟨r'.body.statements, r.body.braced⟩
  parentCall : OptionalExprBecomes c true (r.scope c values (first ++ second))
    r.fragment.parentCall second r'.fragment.parentCall
  rest : r' = { r with
    body := ⟨r'.body.statements, true⟩
    fragment := { r.scope c values (first ++ second) with parentCall := r'.fragment.parentCall } }
  substitutes : (r.scope c values (first ++ second)).Substitutes c (values.getD [])

/-- The values of a struct literal are tidied as expressions are, one after another. -/
theorem tidyArguments_eq (c : Config) (r : Routine) :
    r.tidyArguments c = tidyOptionalExprs c r.fragment.structArguments := by
  obtain ⟨_, _, _, fragment, _, _, _, _⟩ := r
  cases fragment
  rfl

/-- What a routine becomes is made of parts that were tidied in its own scope. -/
theorem Becomes.inside {c : Config} {values : Option (List Expr)} {r r' : Routine}
    (hbecomes : r.Becomes c values r') :
    ∃ first second inner, r.TidiedInside c values first second inner ∧
      r' = c.finishRoutine inner := by
  cases hbecomes with
  | @intro _ _ g body parentCall first second hg hbody hparent =>
    subst hg
    have hscope : (r.scope c values (first ++ second)).structArguments = values :=
      Config.structArguments_noteAll _
    let inner : Routine := { r with
      body := ⟨body.statements, true⟩
      fragment := { r.scope c values (first ++ second) with parentCall := parentCall } }
    refine ⟨first, second, inner, ⟨?_, hparent, rfl, ?_⟩, rfl⟩
    · rw [hbody.braced_eq] at hbody
      exact hbody
    · have hsubstitutes := (r.scope c values (first ++ second)).substitutes c
      rwa [hscope] at hsubstitutes

end Routine

/-- A struct literal. Its values are tidied once, in the scope around it, which notes the arguments
that they refer to and nothing else. In the body each argument that has a value becomes that value
as it is, and nothing is noted for it anywhere; the own scope of the literal notes the arguments
that stay. A function in the body without values of its own is tidied in its own scope, where every
argument stays. -/
theorem struct_literal_substitutes (c : Config) (f : Fragment) (outer : Scopes) {literal : Expr}
    {r : Routine} {arguments : List Expr} (hliteral : literal.shape = .struct r)
    (harguments : r.fragment.structArguments = some arguments)
    (hstruct : r.fragment.isStruct = true) :
    ∃ values noted r' first second,
      tidyExprs c arguments (f :: outer) =
        .ok (values, c.noteAll (!outer.isEmpty) f noted :: outer) ∧
      values.length = arguments.length ∧
      ExprsBecome c (!outer.isEmpty) (c.noteAll (!outer.isEmpty) f noted) arguments noted values ∧
      literal.tidy c (f :: outer) =
        .ok ({ literal with shape := .struct r' }, c.noteAll (!outer.isEmpty) f noted :: outer) ∧
      r.TidiedInside c (some values) first second r' ∧
      ∀ s s' : Routine, s.fragment.structArguments = none →
        s.Becomes c s.fragment.structArguments s' →
        ∃ first second inner, s.TidiedInside c none first second inner ∧
          s' = c.finishRoutine inner := by
  obtain ⟨shape, duplicated, grouped, slot⟩ := literal
  cases hliteral
  obtain ⟨values, noted, hvalues, hbecome⟩ := tidyExprs_become c outer arguments f
  let around := c.noteAll (!outer.isEmpty) f noted
  have hgiven : r.tidyArguments c (f :: outer) = .ok (some values, around :: outer) := by
    rw [r.tidyArguments_eq, harguments]
    exact Tidying.bind_eq hvalues rfl
  obtain ⟨r', noted', hrun, hspec⟩ := r.tidy_becomes c outer (some values) around
  obtain ⟨rfl, hr⟩ := hspec _ (.refl False _)
  obtain ⟨first, second, inner, hinside, rfl⟩ := hr.inside
  have hsame : inner.fragment.isStruct = true := by
    rw [hinside.rest, ← hstruct]
    unfold Fragment.isStruct Routine.scope
    rw [(Config.grows_noteAll _).frame]
  rw [c.finishRoutine_of_isStruct hsame] at hrun
  refine ⟨values, noted, inner, first, second, hvalues, ?_, ?_, ?_, hinside, ?_⟩
  · exact (hbecome _ (.refl False _)).length_eq
  · exact hbecome _ (.refl False _)
  · have hshape : (Shape.struct r).tidy c (f :: outer) = .ok (.struct inner, around :: outer) :=
      Tidying.bind_eq hgiven (Tidying.bind_eq hrun rfl)
    exact Expr.tidy_of_shape rfl hshape
  · intro s s' hnone hs
    rw [hnone] at hs
    exact hs.inside

namespace Sample

/-- A function that returns its own first argument. -/
def getter : Routine where
  body := ⟨[.ret (bare "argument0" .argument)], true⟩
  fragment := { codeName := "gml_Script_get" }

/-- The body of a struct literal with one value, which is an argument itself. The literal has the
value as a member and a function as another one. -/
def holder : Routine where
  body := ⟨[.assign (bare "item" .own) (bare "argument0" .argument),
    .assign (bare "get" .own) (.ofShape (.routine getter))], true⟩
  fragment := {
    codeName := "gml_Script____struct___0_holder"
    structArguments := some [bare "argument3" .argument] }

end Sample

open Sample

/-- The value of the literal is an argument of the scope around it. It is tidied there, and takes
the place of the variable in the literal. -/
theorem struct_literal_substitutes_holder :
    holder.fragment.structArguments = some [bare "argument3" .argument] ∧
      holder.fragment.isStruct = true ∧
      ∃ values noted r' first second,
        tidyExprs {} [bare "argument3" .argument] [{}] =
          .ok (values, [Config.noteAll {} false {} noted]) ∧
        values.length = 1 ∧
        (Expr.ofShape (.struct holder)).tidy {} [{}] =
          .ok ({ Expr.ofShape (.struct holder) with shape := .struct r' },
            [Config.noteAll {} false {} noted]) ∧
        holder.TidiedInside {} (some values) first second r' := by
  have hstruct : holder.fragment.isStruct = true := by decide
  obtain ⟨values, noted, r', first, second, hvalues, hlength, -, hrun, hinside, -⟩ :=
    @struct_literal_substitutes {} {} [] (.ofShape (.struct holder)) holder _ rfl rfl hstruct
  exact ⟨rfl, hstruct, values, noted, r', first, second, hvalues, hlength, hrun, hinside⟩

/-- The value stands for the argument and is noted around the literal. The function in the literal
has its own argument as a parameter. -/
example : ∃ r f', (Expr.ofShape (.struct holder)).tidy {} [{}] =
      .ok (.ofShape (.struct { holder with body := ⟨[
        .assign (bare "item" .own) (bare "argument3" .argument),
        .assign (bare "get" .own) (.ofShape (.routine r))], true⟩ }), [f']) ∧
    f'.maxArgument = 3 ∧ r.parameters = ["arg0"] :=
  ⟨_, _, rfl, rfl, rfl⟩

end GmlDecompiler

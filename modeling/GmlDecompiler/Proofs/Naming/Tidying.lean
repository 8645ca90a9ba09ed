import GmlDecompiler.Proofs.Naming.Built
import GmlDecompiler.Proofs.Naming.Parameters
import GmlDecompiler.Proofs.Tidying.Rearranging

/-!
# Tidying names arguments

Tidying a part of a tree never fails, changes only the innermost scope, and lets that scope only
grow. If the part was new before, every routine in it is well-named afterwards, the innermost scope
knows the arguments that the part refers to, and no other argument was given a name. All of this is
shown together, part by part, since a scope has to keep what it learned from one part while the
next ones are tidied.
-/

namespace GmlDecompiler

/-- Tidying a routine, in some scopes and with some values for its struct arguments, gives another
one. -/
def Routine.TidiesTo (c : Config) (r r' : Routine) : Prop :=
  ∃ values scopes scopes', r.tidy c values scopes = .ok (r', scopes')

/-- The routine is one of the sources, tidied. It is well-named exactly if its arguments fit, and
they fit if the source refers to no argument with an enormous index. The body of a struct literal
has no parameters. -/
def Routine.NamedFrom (c : Config) (sources : List Routine) (r : Routine) : Prop :=
  ∃ source ∈ sources, source.TidiesTo c r ∧ (r.fragment.isStruct = false →
    (r.WellNamed ↔ r.ArgumentsFit) ∧ (source.SmallIndices → r.ArgumentsFit))

/-- Every routine in the tree is well-named, and in the scope of a routine every argument that the
tree refers to is known. Inside a struct literal arguments stand for values and have no names. -/
structure Contents.Sound (c : Config) (sources : List Routine) (outer : Scopes) (f : Fragment)
    (k : Contents) : Prop where
  routines : ∀ r ∈ k.routines, r.NamedFrom c sources
  accesses : outer ≠ [] → f.structArguments = none → ∀ a ∈ k.accesses, f.Knows a

/-- Every routine in the values of a struct literal is well-named. -/
def SoundValues (c : Config) (sources : List Routine) (values : Option (List Expr)) : Prop :=
  ∀ r ∈ (optionalExprsContents values).routines, r.NamedFrom c sources

/-- Outside of struct literals there are no values. -/
theorem soundValues_none (c : Config) (sources : List Routine) : SoundValues c sources none := by
  simp [SoundValues, optionalExprsContents]

namespace Contents.Sound

variable {c : Config} {sources : List Routine} {outer : Scopes} {f f' : Fragment} {k l : Contents}
  {named : Prop}

/-- An empty tree is sound in every scope. -/
theorem empty : ({} : Contents).Sound c sources outer f := by
  constructor <;> simp

/-- Two sound trees are sound together. -/
theorem append (hk : k.Sound c sources outer f) (hl : l.Sound c sources outer f) :
    (k ++ l).Sound c sources outer f where
  routines := List.forall_mem_append.mpr ⟨hk.routines, hl.routines⟩
  accesses houter hvalues :=
    List.forall_mem_append.mpr ⟨hk.accesses houter hvalues, hl.accesses houter hvalues⟩

/-- What is within a sound tree is sound. -/
theorem within (hl : l.Sound c sources outer f) (hkl : k.Within l) :
    k.Sound c sources outer f where
  routines r hr := hl.routines r (hkl.routines hr)
  accesses houter hvalues a ha := hl.accesses houter hvalues a (hkl.accesses ha)

/-- What is sound in a scope is sound when the scope has grown. -/
theorem grow (hk : k.Sound c sources outer f) (hgrows : f.Grows named f') :
    k.Sound c sources outer f' where
  routines := hk.routines
  accesses houter hvalues a ha :=
    hgrows.knows (hk.accesses houter (hgrows.structArguments_eq ▸ hvalues) a ha)

end Contents.Sound

/-- What tidying one part of a tree does: the innermost scope grows, it names only arguments that
the part refers to, and a part with routines that are new is sound afterwards. -/
structure Passes (c : Config) (outer : Scopes) (f : Fragment) (k : Contents) (f' : Fragment)
    (k' : Contents) : Prop where
  grows : f.Grows (c.dialect.namedArguments = true ∧ outer ≠ []) f'
  referred : f.structArguments = none →
    ∀ i ∈ f'.naming.byIndex, i ∈ f.naming.byIndex ∨ k.Refers i
  sound : c.dialect.namedArguments = true → ∀ {sources : List Routine},
    (∀ r ∈ sources, r.IsNew) → SoundValues c sources f.structArguments → k.routines ⊆ sources →
      k'.Sound c sources outer f'

namespace Passes

variable {c : Config} {outer : Scopes} {f g h : Fragment} {k k' k'' l l' : Contents}

/-- A part without variables and routines. -/
theorem nothing (c : Config) (outer : Scopes) (f : Fragment) (k : Contents) :
    Passes c outer f k f {} :=
  ⟨.refl _ f, fun _ _ hi => .inl hi, fun _ _ _ _ _ => .empty⟩

/-- One part after another. -/
theorem append (hk : Passes c outer f k g k') (hl : Passes c outer g l h l') :
    Passes c outer f (k ++ l) h (k' ++ l') where
  grows := hk.grows.trans hl.grows
  referred := by
    intro hvalues i hi
    rcases hl.referred (hk.grows.structArguments_eq ▸ hvalues) i hi with hi | hi
    · exact (hk.referred hvalues i hi).imp_right (Contents.Within.left k l).refers
    · exact .inr ((Contents.Within.right k l).refers hi)
  sound := by
    intro hnamed sources hnew hvalues hsources
    obtain ⟨hksources, hlsources⟩ := List.append_subset.mp hsources
    have hvalues' : SoundValues c sources g.structArguments :=
      hk.grows.structArguments_eq ▸ hvalues
    exact ((hk.sound hnamed hnew hvalues hksources).grow hl.grows).append
      (hl.sound hnamed hnew hvalues' hlsources)

/-- Rearranging a part, or dropping some of it. -/
theorem within (hk : Passes c outer f k g k') (hwithin : k''.Within k') :
    Passes c outer f k g k'' where
  grows := hk.grows
  referred := hk.referred
  sound hnamed _ hnew hvalues hsources :=
    (hk.sound hnamed hnew hvalues hsources).within hwithin

end Passes

/-- A value that stands for a variable is one of the values of the struct literal. -/
theorem Shape.substitute?_eq_some {shape : Shape} {f : Fragment} {outer : Scopes} {e : Expr}
    (hvalue : shape.substitute? (f :: outer) = some e) :
    ∃ es, f.structArguments = some es ∧ e ∈ es := by
  unfold Shape.substitute? at hvalue
  split at hvalue
  · obtain ⟨index, -, hvalue⟩ := Option.bind_eq_some_iff.mp hvalue
    have hvalue : f.structArguments.bind (·[index]?) = some e := hvalue
    obtain ⟨es, hes, hvalue⟩ := Option.bind_eq_some_iff.mp hvalue
    exact ⟨es, hes, List.mem_of_getElem? hvalue⟩
  · cases hvalue

/-- Finishing an access notes the argument that it reads, and names it inside a routine. -/
theorem Config.finishAccess_spec (c : Config) (a : Access) (outer : Scopes) (f : Fragment) :
    ∃ a' f', c.finishAccess a (f :: outer) = .ok (a', f' :: outer) ∧
      f.Grows (c.dialect.namedArguments = true ∧ outer ≠ []) f' ∧
      (∀ i ∈ f'.naming.byIndex, i ∈ f.naming.byIndex ∨ a.argumentIndex? = some i) ∧
      a'.owner = a.owner ∧ a'.indices = a.indices ∧
      (c.dialect.namedArguments = true → outer ≠ [] → f'.Knows a') := by
  unfold Config.finishAccess
  cases hindex : a.argumentIndex? with
  | none =>
    exact ⟨a, f, rfl, .refl _ f, fun _ hi => .inl hi, rfl, rfl,
      fun _ _ i hi => by simp [hindex] at hi⟩
  | some index =>
    match outer with
    | [] =>
      refine ⟨a, f.noteArgument index, rfl, ?_, fun _ hi => .inl hi, rfl, rfl,
        fun _ h => absurd rfl h⟩
      exact (f.grows_noteArgument index).weaken fun h => h.2 rfl
    | g :: scopes =>
      refine ⟨_, _, rfl, (c.grows_nameArgument_noteArgument f index).weaken And.left, ?_, rfl, rfl,
        ?_⟩
      · intro i hi
        rcases c.eq_or_mem_of_mem_byIndex_nameArgument hi with rfl | hi
        · exact .inr rfl
        · exact .inl hi
      · intro hnamed _ i hi
        obtain rfl : index = i := Option.some.inj (hindex.symm.trans hi)
        obtain ⟨name, hname, hbyIndex⟩ := Config.nameArgument_eq hnamed (f.noteArgument index) index
        refine ⟨⟨name, hname, hbyIndex⟩, ?_⟩
        exact Int32.le_trans (f.maxArgument_noteArgument index).2
          (c.grows_nameArgument _ index True).max_le

/-- Finishing an access changes nothing of it but the name that it is shown by. -/
theorem Config.eq_of_finishAccess {c : Config} {a a' : Access} {scopes scopes' : Scopes}
    (hrun : c.finishAccess a scopes = .ok (a', scopes')) :
    a' = { a with argumentName := a'.argumentName } := by
  unfold Config.finishAccess at hrun
  cases hindex : a.argumentIndex? with
  | none =>
    rw [hindex] at hrun
    cases hrun
    cases a
    rfl
  | some index =>
    rw [hindex] at hrun
    match scopes with
    | [] => cases hrun
    | [_] | _ :: _ :: _ =>
      cases hrun
      cases a
      rfl

/-- Finishing an access, as part of tidying the access `source`. -/
theorem Config.finishAccess_passes (c : Config) (a source : Access) (outer : Scopes)
    (f : Fragment)
    (hindex : f.structArguments = none → a.argumentIndex? = source.argumentIndex?) :
    ∃ a' f', c.finishAccess a (f :: outer) = .ok (a', f' :: outer) ∧
      a'.owner = a.owner ∧ a'.indices = a.indices ∧
      Passes c outer f ⟨[source], []⟩ f' ⟨[a'], []⟩ := by
  obtain ⟨a', f', hrun, hgrows, hreferred, howner, hindices, hknows⟩ :=
    c.finishAccess_spec a outer f
  refine ⟨a', f', hrun, howner, hindices, hgrows, ?_, fun hnamed _ _ _ _ => ⟨by simp, ?_⟩⟩
  · intro hvalues i hi
    refine (hreferred i hi).imp_right fun ha => ?_
    exact ⟨source, List.mem_singleton_self _, (hindex hvalues).symm.trans ha⟩
  · intro houter _
    exact List.forall_mem_singleton.mpr (hknows hnamed houter)

section Rearranging

variable {e e' : Expr}

/-- What stands in the place of an expression contains nothing else. -/
theorem Expr.Redrawn.within (hredrawn : e.Redrawn e') : e'.contents.Within e.contents := by
  rw [e.contents_eq, e'.contents_eq]
  rcases hredrawn with hsame | hatom
  · rw [hsame]
    exact .refl _
  · have hempty : e'.shape.contents = {} := by
      cases hshape : e'.shape <;> rw [hshape] at hatom <;> first | rfl | cases hatom
    rw [hempty]
    exact .empty _

/-- An expression contains no more than the expressions that it is one of. -/
theorem Expr.contents_within {es : List Expr} (he : e ∈ es) :
    e.contents.Within (exprContents es) := by
  induction es with
  | nil => cases he
  | cons first rest ih =>
    rcases List.mem_cons.mp he with rfl | he
    · exact .left _ _
    · exact (ih he).trans (.right _ _)

/-- Expressions that stand in the places of others contain nothing else. -/
theorem exprContents_within {es es' : List Expr} (hes : ∀ e' ∈ es', ∃ e ∈ es, e.Redrawn e') :
    (exprContents es').Within (exprContents es) := by
  induction es' with
  | nil => exact .empty _
  | cons first rest ih =>
    obtain ⟨⟨e, he, hfirst⟩, hrest⟩ := List.forall_mem_cons.mp hes
    exact .join (hfirst.within.trans (Expr.contents_within he)) (ih hrest)

namespace Config

variable (c : Config)

/-- Reading and grouping operands adds nothing to them. -/
theorem operands_within (operator : Instruction) (left right : Expr) :
    ((c.operands operator left right).1.contents
      ++ (c.operands operator left right).2.contents).Within (left.contents ++ right.contents) := by
  obtain ⟨hleft, hright⟩ := c.operands_redrawn operator left right
  exact .append hleft.within hright.within

/-- Putting conditions in parentheses adds nothing to them. -/
theorem map_groupCondition_within (es : List Expr) :
    (exprContents (es.map groupCondition)).Within (exprContents es) := by
  refine exprContents_within fun e' he' => ?_
  obtain ⟨e, he, rfl⟩ := List.mem_map.mp he'
  exact ⟨e, he, groupCondition_redrawn e⟩

/-- An assignment that declares a routine drops its target. -/
theorem assign_within (target value : Expr) :
    (c.assign target value).contents.Within (target.contents ++ value.contents) := by
  obtain ⟨value', hredrawn, hassign⟩ := c.assign_eq target value
  have hvalue := hredrawn.within
  rcases hassign with hassign | ⟨r, hshape, hassign⟩
  · rw [hassign]
    exact .append (.refl _) hvalue
  · rw [value'.contents_eq, hshape] at hvalue
    rw [hassign]
    exact hvalue.trans (.right _ _)

end Config

end Rearranging

/-- What tidying a routine does, with values for its struct arguments. -/
structure RoutinePasses (c : Config) (values : Option (List Expr)) (r r' : Routine) : Prop where
  values_eq : r'.fragment.structArguments = values
  inner : c.dialect.namedArguments = true → ∀ {sources : List Routine},
    (∀ x ∈ sources, x.IsNew) → SoundValues c sources values →
      r.innerContents.routines ⊆ sources → ∀ x ∈ r'.innerContents.routines, x.NamedFrom c sources
  whole : c.dialect.namedArguments = true → ∀ {sources : List Routine},
    (∀ x ∈ sources, x.IsNew) → r :: r.innerContents.routines ⊆ sources → values = none →
      ∀ x ∈ r' :: r'.contents.routines, x.NamedFrom c sources

/-- A routine whose body and parent call were tidied in a scope of their own. -/
theorem RoutinePasses.finish {c : Config} {values : Option (List Expr)} {outer : Scopes}
    {r r' : Routine} {g : Fragment} (houter : outer ≠ [])
    (hpasses : Passes c outer { r.fragment with structArguments := values } r.innerContents g
      r'.innerContents)
    (hfragment : r'.fragment = { g with parentCall := r'.fragment.parentCall })
    (hdefaults : r'.defaults = r.defaults) (htidies : r.TidiesTo c (c.finishRoutine r')) :
    RoutinePasses c values r (c.finishRoutine r') := by
  have hvalues : r'.fragment.structArguments = values := by
    rw [hfragment]
    exact hpasses.grows.structArguments_eq
  refine ⟨?_, ?_, ?_⟩
  · rw [c.structArguments_finishRoutine, hvalues]
  · intro hnamed sources hnew hsound hsources x hx
    exact (hpasses.sound hnamed hnew hsound hsources).routines x
      ((c.finishRoutine_within r').routines hx)
  · rintro hnamed sources hnew hsources rfl
    obtain ⟨hmem, hinner⟩ := List.cons_subset.mp hsources
    have hr := hnew r hmem
    have hsound := hpasses.sound hnamed hnew (soundValues_none c sources) hinner
    have hempty : r'.defaults = [] := hdefaults.trans hr.defaults
    refine List.forall_mem_cons.mpr ⟨⟨r, hmem, htidies, fun hfinished => ?_⟩, fun x hx => ?_⟩
    · have hstruct := c.isStruct_of_finishRoutine hfinished
      have hconsistent : r'.fragment.naming.Consistent r'.fragment.locals := by
        rw [hfragment]
        exact hpasses.grows.consistent (hr.fragment.naming ▸ Naming.consistent_empty _)
      have hknown (a : Access) (ha : a ∈ r'.innerContents.accesses) : g.Knows a :=
        hsound.accesses houter hpasses.grows.structArguments_eq a ha
      refine ⟨Config.wellNamed_finishRoutine_iff hnamed hstruct hempty hconsistent ?_, ?_⟩
      · rw [hfragment]
        exact hknown
      · intro hsmall index huses
        have hnames : ∀ i ∈ g.naming.byIndex, i < Fragment.indexLimit := by
          intro i hi
          -- a new fragment has named nothing, so every name is one that the routine refers to
          rcases hpasses.referred rfl i hi with hold | hrefers
          · simp [hr.fragment.naming] at hold
          · rw [Routine.SmallIndices, r.contents_eq] at hsmall
            exact hsmall i ((Contents.Within.left _ _).refers hrefers)
        obtain ⟨a, ha, hindex⟩ := Config.exists_access_of_uses hstruct hempty huses
        obtain ⟨⟨name, -, hname⟩, -⟩ := hknown a ha index hindex
        have hmax := hpasses.grows.maxArgument_lt ⟨hnamed, houter⟩ hr.fragment.small hnames
        rw [(c.finishRoutine_counts hstruct).1, hfragment]
        exact ⟨hnames index (Naming.mem_byIndex hname), hmax⟩
    · exact hsound.routines x ((c.finishRoutine_contents_within hempty).routines hx)

namespace RoutinePasses

variable {c : Config} {r r' : Routine} {outer : Scopes} {f f' : Fragment}

/-- A routine as part of a tree. -/
theorem declared (hroutine : RoutinePasses c r.fragment.structArguments r r') (outer : Scopes)
    (f : Fragment) :
    Passes c outer f ⟨[], r :: r.contents.routines⟩ f ⟨[], r' :: r'.contents.routines⟩ := by
  refine ⟨.refl _ f, fun _ _ hi => .inl hi, fun hnamed sources hnew _ hsources => ⟨?_, by simp⟩⟩
  obtain ⟨hr, hcontents⟩ := List.cons_subset.mp hsources
  rw [Routine.contents_eq, Contents.routines_append, List.append_subset] at hcontents
  exact hroutine.whole hnamed hnew (List.cons_subset.mpr ⟨hr, hcontents.1⟩)
    (hnew r hr).fragment.structArguments

/-- A struct literal as part of a tree. Its values belong to the scope around it. -/
theorem literal {values : Option (List Expr)} (hroutine : RoutinePasses c values r r')
    (hvalues : Passes c outer f r.valueContents f' (optionalExprsContents values)) :
    Passes c outer f (r.valueContents ++ r.innerContents.enclosed) f'
      (r'.valueContents ++ r'.innerContents.enclosed) := by
  refine ⟨hvalues.grows, ?_, fun hnamed sources hnew hsound hsources => ?_⟩
  · intro hnone i hi
    exact (hvalues.referred hnone i hi).imp_right (Contents.Within.left _ _).refers
  · obtain ⟨hvaluesNew, hinnerNew⟩ := List.append_subset.mp hsources
    have htidied := hvalues.sound hnamed hnew hsound hvaluesNew
    rw [Routine.valueContents_eq, hroutine.values_eq]
    exact htidied.append ⟨hroutine.inner hnamed hnew htidied.routines hinnerNew, by simp⟩

end RoutinePasses

section Literals

variable {c : Config} {scopes scopes' : Scopes}

/-- Tidying makes no integer literal of anything else, and keeps those that there are. -/
theorem Shape.integer?_tidy {shape shape' : Shape}
    (hrun : shape.tidy c scopes = .ok (shape', scopes')) (duplicated grouped : Bool)
    (slot : SlotType) :
    (Expr.mk shape' duplicated grouped slot).integer? =
      (Expr.mk shape duplicated grouped slot).integer? := by
  cases shape with
  | int16 | int32 | int64 | double | string | boolean | keyword | function | constant =>
    cases hrun
    rfl
  | access | unary | call | chain | routine =>
    obtain ⟨_, -, hrun⟩ := exists_of_bind_eq_ok hrun
    cases hrun
    rfl
  | binary | construct | struct =>
    obtain ⟨_, -, hrun⟩ := exists_of_bind_eq_ok hrun
    obtain ⟨_, -, hrun⟩ := exists_of_bind_eq_ok hrun
    cases hrun
    rfl
  | callValue =>
    obtain ⟨_, -, hrun⟩ := exists_of_bind_eq_ok hrun
    obtain ⟨_, -, hrun⟩ := exists_of_bind_eq_ok hrun
    obtain ⟨_, -, hrun⟩ := exists_of_bind_eq_ok hrun
    cases hrun
    rfl

/-- Outside of struct literals no value stands for a variable. -/
theorem Shape.substitute?_eq_none {shape : Shape} {f : Fragment} {outer : Scopes}
    (hvalues : f.structArguments = none) : shape.substitute? (f :: outer) = none := by
  unfold Shape.substitute?
  split
  · simp [Scopes.structArgument?, hvalues]
  · rfl

/-- A tidied expression is the value that stands for it, or it has its shape tidied. -/
theorem Expr.tidy_eq_ok {e e' : Expr} (hrun : e.tidy c scopes = .ok (e', scopes')) :
    e.shape.substitute? scopes = some e' ∨
      e.shape.substitute? scopes = none ∧
        ∃ shape', e.shape.tidy c scopes = .ok (shape', scopes') ∧
          e' = { e with shape := shape' } := by
  obtain ⟨shape, duplicated, grouped, slot⟩ := e
  cases hvalue : shape.substitute? scopes with
  | some argument =>
    simp only [Expr.tidy, hvalue, bind, StateT.bind, Except.bind, get_apply, pure_apply] at hrun
    cases hrun
    exact .inl rfl
  | none =>
    simp only [Expr.tidy, hvalue, bind, StateT.bind, Except.bind, get_apply] at hrun
    cases hshape : shape.tidy c scopes with
    | error fault =>
      rw [hshape] at hrun
      cases hrun
    | ok result =>
      rw [hshape] at hrun
      cases hrun
      exact .inr ⟨rfl, result.1, rfl, rfl⟩

/-- Outside of struct literals, an expression is an integer literal after it is tidied exactly if it
was one. -/
theorem Expr.integer?_tidy {e e' : Expr} {f : Fragment} {outer : Scopes}
    (hvalues : f.structArguments = none) (hrun : e.tidy c (f :: outer) = .ok (e', scopes')) :
    e'.integer? = e.integer? := by
  rcases Expr.tidy_eq_ok hrun with hvalue | ⟨-, shape', hshape, rfl⟩
  · rw [Shape.substitute?_eq_none hvalues] at hvalue
    cases hvalue
  · exact Shape.integer?_tidy hshape e.duplicated e.grouped e.slot

/-- Outside of struct literals, an access whose indices are tidied reads the argument that it
read. -/
theorem Access.argumentIndex?_of_tidyOptionalExprs {a a' : Access} {f : Fragment} {outer : Scopes}
    (hvalues : f.structArguments = none) (htarget : a'.target = a.target)
    (hrun : tidyOptionalExprs c a.indices (f :: outer) = .ok (a'.indices, scopes')) :
    a'.argumentIndex? = a.argumentIndex? := by
  obtain ⟨target, _, _, indices, _, _⟩ := a
  obtain ⟨_, _, _, indices', _, _⟩ := a'
  cases htarget
  -- an index is looked at only if it is the only one
  match indices with
  | none =>
    cases hrun
    rfl
  | some [] =>
    cases hrun
    rfl
  | some [e] =>
    obtain ⟨_, hes, hrun⟩ := exists_of_bind_eq_ok hrun
    obtain ⟨_, he, hes⟩ := exists_of_bind_eq_ok hes
    cases hes
    cases hrun
    simp only [Access.argumentIndex?, Expr.integer?_tidy hvalues he]
  | some (e₁ :: e₂ :: es) =>
    obtain ⟨_, hes, hrun⟩ := exists_of_bind_eq_ok hrun
    obtain ⟨_, -, hes⟩ := exists_of_bind_eq_ok hes
    obtain ⟨_, hrest, hes⟩ := exists_of_bind_eq_ok hes
    obtain ⟨_, -, hrest⟩ := exists_of_bind_eq_ok hrest
    obtain ⟨_, -, hrest⟩ := exists_of_bind_eq_ok hrest
    cases hrest
    cases hes
    cases hrun
    rfl

end Literals

/-- The first of two computations in a row has run. -/
theorem Tidying.bind_eq {α β : Type} {x : Tidying α} {k : α → Tidying β} {scopes scopes' : Scopes}
    {a : α} {result : Except Fault (β × Scopes)} (hx : x scopes = .ok (a, scopes'))
    (hk : k a scopes' = result) : (x >>= k) scopes = result := by
  rw [← hk]
  simp only [bind, StateT.bind, hx, Except.bind]

mutual

/-- Tidying an expression. -/
theorem Expr.tidy_passes (c : Config) (e : Expr) (outer : Scopes) (f : Fragment) :
    ∃ e' f', e.tidy c (f :: outer) = .ok (e', f' :: outer) ∧
      Passes c outer f e.contents f' e'.contents := by
  match e with
  | ⟨shape, duplicated, grouped, slot⟩ =>
    cases hvalue : shape.substitute? (f :: outer) with
    | some argument =>
      obtain ⟨es, hes, hmem⟩ := Shape.substitute?_eq_some hvalue
      refine ⟨argument, f, ?_, .refl _ f, fun _ _ hi => .inl hi,
        fun _ _ _ hvalues _ => ⟨?_, ?_⟩⟩
      · simp only [Expr.tidy, hvalue, bind, StateT.bind, Except.bind, pure_apply, get_apply]
      · rw [hes] at hvalues
        exact fun r hr => hvalues r (mem_routines_exprContents.mpr ⟨argument, hmem, hr⟩)
      · intro _ hnone
        rw [hes] at hnone
        cases hnone
    | none =>
      obtain ⟨shape', f', hrun, hpasses⟩ := shape.tidy_passes c outer f
      refine ⟨⟨shape', duplicated, grouped, slot⟩, f', ?_, hpasses⟩
      simp only [Expr.tidy, hvalue, hrun, bind, StateT.bind, Except.bind, pure_apply, get_apply]
termination_by structural e

/-- Tidying a shape. -/
theorem Shape.tidy_passes (c : Config) (shape : Shape) (outer : Scopes) (f : Fragment) :
    ∃ shape' f', shape.tidy c (f :: outer) = .ok (shape', f' :: outer) ∧
      Passes c outer f shape.contents f' shape'.contents := by
  match shape with
  | .access a =>
    obtain ⟨a', f', hrun, hpasses⟩ := a.tidy_passes c outer f
    refine ⟨.access a', f', ?_, hpasses⟩
    exact Tidying.bind_eq hrun rfl
  | .unary operator operand =>
    obtain ⟨operand', f', hrun, hpasses⟩ := operand.tidy_passes c outer f
    refine ⟨.unary operator (operand'.groupIf operand'.strength?.isSome), f', ?_, ?_⟩
    · exact Tidying.bind_eq hrun rfl
    · exact hpasses.within (Expr.groupIf_redrawn operand'.strength?.isSome operand').within
  | .binary operator left right =>
    obtain ⟨left', f₁, hleft, hpasses₁⟩ := left.tidy_passes c outer f
    obtain ⟨right', f₂, hright, hpasses₂⟩ := right.tidy_passes c outer f₁
    refine ⟨.binary operator (c.operands operator left' right').1
      (c.operands operator left' right').2, f₂, ?_,
      (hpasses₁.append hpasses₂).within (c.operands_within operator left' right')⟩
    exact Tidying.bind_eq hleft (Tidying.bind_eq hright rfl)
  | .call function arguments =>
    obtain ⟨arguments', f', hrun, hpasses⟩ := tidyExprs_passes c arguments outer f
    refine ⟨.call function (c.readings.readArguments c.enums function arguments'), f', ?_,
      hpasses.within (exprContents_within fun _ => Readings.exists_of_mem_readArguments)⟩
    exact Tidying.bind_eq hrun rfl
  | .callValue callee self arguments =>
    obtain ⟨callee', f₁, hcallee, hpasses₁⟩ := callee.tidy_passes c outer f
    obtain ⟨self', f₂, hself, hpasses₂⟩ := self.tidy_passes c outer f₁
    obtain ⟨arguments', f₃, harguments, hpasses₃⟩ := tidyExprs_passes c arguments outer f₂
    refine ⟨.callValue callee' self' arguments', f₃, ?_,
      (hpasses₁.append hpasses₂).append hpasses₃⟩
    exact Tidying.bind_eq hcallee (Tidying.bind_eq hself (Tidying.bind_eq harguments rfl))
  | .construct callee arguments =>
    obtain ⟨callee', f₁, hcallee, hpasses₁⟩ := callee.tidy_passes c outer f
    obtain ⟨arguments', f₂, harguments, hpasses₂⟩ := tidyExprs_passes c arguments outer f₁
    refine ⟨.construct callee' arguments', f₂, ?_, hpasses₁.append hpasses₂⟩
    exact Tidying.bind_eq hcallee (Tidying.bind_eq harguments rfl)
  | .chain logic conditions =>
    obtain ⟨conditions', f', hrun, hpasses⟩ := tidyExprs_passes c conditions outer f
    refine ⟨.chain logic (conditions'.map Config.groupCondition), f', ?_, ?_⟩
    · exact Tidying.bind_eq hrun rfl
    · exact hpasses.within (Config.map_groupCondition_within conditions')
  | .routine routine =>
    obtain ⟨routine', hrun, hroutine⟩ :=
      routine.tidy_passes c routine.fragment.structArguments outer f
    refine ⟨.routine routine', f, ?_, hroutine.declared outer f⟩
    exact Tidying.bind_eq hrun rfl
  | .struct routine =>
    obtain ⟨values, f', hvalues, hpasses⟩ := routine.tidyArguments_passes c outer f
    obtain ⟨routine', hrun, hroutine⟩ := routine.tidy_passes c values outer f'
    refine ⟨.struct routine', f', ?_, hroutine.literal hpasses⟩
    exact Tidying.bind_eq hvalues (Tidying.bind_eq hrun rfl)
  | .int16 _ | .int32 _ | .int64 _ | .double _ | .string _ | .boolean _ | .keyword _
  | .function _ | .constant _ => exact ⟨_, f, rfl, .nothing c outer f _⟩
termination_by structural shape

/-- Tidying a variable access. -/
theorem Access.tidy_passes (c : Config) (a : Access) (outer : Scopes) (f : Fragment) :
    ∃ a' f', a.tidy c (f :: outer) = .ok (a', f' :: outer) ∧
      Passes c outer f a.contents f' a'.contents := by
  match a with
  | ⟨target, reference, owner, indices, regularPush, argumentName⟩ =>
    obtain ⟨owner', f₁, howner, hpasses₁⟩ := owner.tidy_passes c outer f
    obtain ⟨indices', f₂, hindices, hpasses₂⟩ := tidyOptionalExprs_passes c indices outer f₁
    obtain ⟨a', f₃, hrun, howner', hindices', hpasses₃⟩ := c.finishAccess_passes
      ⟨target, reference, owner', indices', regularPush, argumentName⟩
      ⟨target, reference, owner, indices, regularPush, argumentName⟩ outer f₂
      fun hvalues => Access.argumentIndex?_of_tidyOptionalExprs
        (by rwa [← hpasses₂.grows.structArguments_eq]) rfl hindices
    refine ⟨a', f₃, ?_, ?_⟩
    · simp only [Access.tidy, howner, hindices, hrun, bind, StateT.bind, Except.bind]
    · rw [a'.contents_eq, howner', hindices']
      exact (hpasses₁.append hpasses₂).append hpasses₃
termination_by structural a

/-- Tidying expressions one after another. -/
theorem tidyExprs_passes (c : Config) (es : List Expr) (outer : Scopes) (f : Fragment) :
    ∃ es' f', tidyExprs c es (f :: outer) = .ok (es', f' :: outer) ∧
      Passes c outer f (exprContents es) f' (exprContents es') := by
  match es with
  | [] => exact ⟨[], f, rfl, .nothing c outer f _⟩
  | e :: es =>
    obtain ⟨e', f₁, hfirst, hpasses₁⟩ := e.tidy_passes c outer f
    obtain ⟨es', f₂, hrest, hpasses₂⟩ := tidyExprs_passes c es outer f₁
    refine ⟨e' :: es', f₂, ?_, hpasses₁.append hpasses₂⟩
    exact Tidying.bind_eq hfirst (Tidying.bind_eq hrest rfl)
termination_by structural es

/-- Tidying expressions that may be missing. -/
theorem tidyOptionalExprs_passes (c : Config) (es : Option (List Expr)) (outer : Scopes)
    (f : Fragment) :
    ∃ es' f', tidyOptionalExprs c es (f :: outer) = .ok (es', f' :: outer) ∧
      Passes c outer f (optionalExprsContents es) f' (optionalExprsContents es') := by
  match es with
  | none => exact ⟨none, f, rfl, .nothing c outer f _⟩
  | some es =>
    obtain ⟨es', f', hrun, hpasses⟩ := tidyExprs_passes c es outer f
    refine ⟨some es', f', ?_, hpasses⟩
    exact Tidying.bind_eq hrun rfl
termination_by structural es

/-- Tidying an expression that may be missing. -/
theorem tidyOptionalExpr_passes (c : Config) (e : Option Expr) (outer : Scopes) (f : Fragment) :
    ∃ e' f', tidyOptionalExpr c e (f :: outer) = .ok (e', f' :: outer) ∧
      Passes c outer f (optionalExprContents e) f' (optionalExprContents e') := by
  match e with
  | none => exact ⟨none, f, rfl, .nothing c outer f _⟩
  | some e =>
    obtain ⟨e', f', hrun, hpasses⟩ := e.tidy_passes c outer f
    refine ⟨some e', f', ?_, hpasses⟩
    exact Tidying.bind_eq hrun rfl
termination_by structural e

/-- Tidying a statement. -/
theorem Stmt.tidy_passes (c : Config) (s : Stmt) (outer : Scopes) (f : Fragment) :
    ∃ s' f', s.tidy c (f :: outer) = .ok (s', f' :: outer) ∧
      Passes c outer f s.contents f' s'.contents := by
  match s with
  | .block block =>
    obtain ⟨block', f', hrun, hpasses⟩ := block.tidy_passes c outer f
    refine ⟨.block block', f', ?_, hpasses⟩
    exact Tidying.bind_eq hrun rfl
  | .eval value =>
    obtain ⟨value', f', hrun, hpasses⟩ := value.tidy_passes c outer f
    refine ⟨.eval value', f', ?_, hpasses⟩
    exact Tidying.bind_eq hrun rfl
  | .assign target value =>
    obtain ⟨target', f₁, htarget, hpasses₁⟩ := target.tidy_passes c outer f
    obtain ⟨value', f₂, hvalue, hpasses₂⟩ := value.tidy_passes c outer f₁
    refine ⟨c.assign target' value', f₂, ?_,
      (hpasses₁.append hpasses₂).within (c.assign_within target' value')⟩
    exact Tidying.bind_eq htarget (Tidying.bind_eq hvalue rfl)
  | .static target value =>
    obtain ⟨target', f₁, htarget, hpasses₁⟩ := target.tidy_passes c outer f
    obtain ⟨value', f₂, hvalue, hpasses₂⟩ := value.tidy_passes c outer f₁
    refine ⟨.static target' value', f₂, ?_, hpasses₁.append hpasses₂⟩
    exact Tidying.bind_eq htarget (Tidying.bind_eq hvalue rfl)
  | .ret value =>
    obtain ⟨value', f', hrun, hpasses⟩ := value.tidy_passes c outer f
    refine ⟨.ret value', f', ?_, hpasses⟩
    exact Tidying.bind_eq hrun rfl
  | .branch condition thenPart elsePart =>
    obtain ⟨condition', f₁, hcondition, hpasses₁⟩ := condition.tidy_passes c outer f
    obtain ⟨thenPart', f₂, hthen, hpasses₂⟩ := thenPart.tidy_passes c outer f₁
    obtain ⟨elsePart', f₃, helse, hpasses₃⟩ := tidyOptionalBlock_passes c elsePart outer f₂
    refine ⟨.branch condition' thenPart' elsePart', f₃, ?_,
      (hpasses₁.append hpasses₂).append hpasses₃⟩
    exact Tidying.bind_eq hcondition (Tidying.bind_eq hthen (Tidying.bind_eq helse rfl))
  | .loop condition body =>
    obtain ⟨condition', f₁, hcondition, hpasses₁⟩ := condition.tidy_passes c outer f
    obtain ⟨body', f₂, hbody, hpasses₂⟩ := body.tidy_passes c outer f₁
    refine ⟨.loop condition' body', f₂, ?_, hpasses₁.append hpasses₂⟩
    exact Tidying.bind_eq hcondition (Tidying.bind_eq hbody rfl)
  | .guarded body cleanup =>
    obtain ⟨body', f₁, hbody, hpasses₁⟩ := body.tidy_passes c outer f
    obtain ⟨cleanup', f₂, hcleanup, hpasses₂⟩ := tidyOptionalBlock_passes c cleanup outer f₁
    refine ⟨.guarded body' cleanup', f₂, ?_, hpasses₁.append hpasses₂⟩
    exact Tidying.bind_eq hbody (Tidying.bind_eq hcleanup rfl)
  | .routine routine =>
    obtain ⟨routine', hrun, hroutine⟩ :=
      routine.tidy_passes c routine.fragment.structArguments outer f
    refine ⟨.routine routine', f, ?_, hroutine.declared outer f⟩
    exact Tidying.bind_eq hrun rfl
  | .exit | .leave | .again | .locals _ | .enum _ => exact ⟨_, f, rfl, .nothing c outer f _⟩
termination_by structural s

/-- Tidying a block. -/
theorem Block.tidy_passes (c : Config) (block : Block) (outer : Scopes) (f : Fragment) :
    ∃ block' f', block.tidy c (f :: outer) = .ok (block', f' :: outer) ∧
      Passes c outer f block.contents f' block'.contents := by
  match block with
  | ⟨statements, braced⟩ =>
    obtain ⟨statements', f', hrun, hpasses⟩ := tidyStmts_passes c statements outer f
    refine ⟨⟨statements', braced⟩, f', ?_, hpasses⟩
    exact Tidying.bind_eq hrun rfl
termination_by structural block

/-- Tidying a block that may be missing. -/
theorem tidyOptionalBlock_passes (c : Config) (block : Option Block) (outer : Scopes)
    (f : Fragment) :
    ∃ block' f', tidyOptionalBlock c block (f :: outer) = .ok (block', f' :: outer) ∧
      Passes c outer f (optionalBlockContents block) f' (optionalBlockContents block') := by
  match block with
  | none => exact ⟨none, f, rfl, .nothing c outer f _⟩
  | some block =>
    obtain ⟨block', f', hrun, hpasses⟩ := block.tidy_passes c outer f
    refine ⟨some block', f', ?_, hpasses⟩
    exact Tidying.bind_eq hrun rfl
termination_by structural block

/-- Tidying statements one after another. What the scope learned from the first ones is kept while
the others are tidied. -/
theorem tidyStmts_passes (c : Config) (ss : List Stmt) (outer : Scopes) (f : Fragment) :
    ∃ ss' f', tidyStmts c ss (f :: outer) = .ok (ss', f' :: outer) ∧
      Passes c outer f (stmtContents ss) f' (stmtContents ss') := by
  match ss with
  | [] => exact ⟨[], f, rfl, .nothing c outer f _⟩
  | s :: ss =>
    obtain ⟨s', f₁, hfirst, hpasses₁⟩ := s.tidy_passes c outer f
    obtain ⟨ss', f₂, hrest, hpasses₂⟩ := tidyStmts_passes c ss outer f₁
    refine ⟨s' :: ss', f₂, ?_, hpasses₁.append hpasses₂⟩
    exact Tidying.bind_eq hfirst (Tidying.bind_eq hrest rfl)
termination_by structural ss

/-- Tidying a routine: its parts are tidied in its own scope. -/
theorem Routine.tidy_passes (c : Config) (r : Routine) (values : Option (List Expr))
    (outer : Scopes) (f : Fragment) :
    ∃ r', r.tidy c values (f :: outer) = .ok (r', f :: outer) ∧ RoutinePasses c values r r' := by
  match r with
  | ⟨name, isConstructor, body, fragment, defaults, parameters, blankBefore, blankAfter⟩ =>
    obtain ⟨body', f₁, hbody, hpasses₁⟩ :=
      body.tidy_passes c (f :: outer) { fragment with structArguments := values }
    obtain ⟨parentCall', f₂, hparent, hpasses₂⟩ :=
      fragment.tidyParentCall_passes c (f :: outer) f₁
    let r' : Routine := ⟨name, isConstructor, ⟨body'.statements, true⟩,
      { f₂ with parentCall := parentCall' }, defaults, parameters, blankBefore, blankAfter⟩
    have hrun : Routine.tidy c ⟨name, isConstructor, body, fragment, defaults, parameters,
        blankBefore, blankAfter⟩ values (f :: outer) = .ok (c.finishRoutine r', f :: outer) := by
      simp only [Routine.tidy, Tidying.enter, hbody, hparent, Tidying.leave, bind, StateT.bind,
        Except.bind, pure_apply, modify_apply, r']
    have hinner : r'.innerContents = body'.contents ++ optionalExprContents parentCall' := by
      rw [Routine.innerContents_eq, body'.contents_eq]
      rfl
    refine ⟨c.finishRoutine r', hrun, .finish (List.cons_ne_nil f outer) (g := f₂) ?_ rfl rfl
      ⟨values, f :: outer, f :: outer, hrun⟩⟩
    rw [hinner]
    exact hpasses₁.append hpasses₂
termination_by structural r

/-- Tidying the values of a struct literal. -/
theorem Routine.tidyArguments_passes (c : Config) (r : Routine) (outer : Scopes)
    (f : Fragment) :
    ∃ values f', r.tidyArguments c (f :: outer) = .ok (values, f' :: outer) ∧
      Passes c outer f r.valueContents f' (optionalExprsContents values) := by
  match r with
  | ⟨_, _, _, fragment, _, _, _, _⟩ => exact fragment.tidyArguments_passes c outer f
termination_by structural r

/-- Tidying the values of a struct literal, which belong to the scope around it. -/
theorem Fragment.tidyArguments_passes (c : Config) (g : Fragment) (outer : Scopes)
    (f : Fragment) :
    ∃ values f', g.tidyArguments c (f :: outer) = .ok (values, f' :: outer) ∧
      Passes c outer f g.valueContents f' (optionalExprsContents values) := by
  match g with
  | ⟨_, _, _, _, _, _, _, _, _, _, _, structArguments, _⟩ =>
    exact tidyOptionalExprs_passes c structArguments outer f
termination_by structural g

/-- Tidying the call of the parent constructor. -/
theorem Fragment.tidyParentCall_passes (c : Config) (g : Fragment) (outer : Scopes)
    (f : Fragment) :
    ∃ parentCall f', g.tidyParentCall c (f :: outer) = .ok (parentCall, f' :: outer) ∧
      Passes c outer f g.parentContents f' (optionalExprContents parentCall) := by
  match g with
  | ⟨_, _, _, _, _, _, _, _, _, _, _, _, parentCall⟩ =>
    exact tidyOptionalExpr_passes c parentCall outer f
termination_by structural g

end

/-- An expression that no value stands for is tidied by tidying its shape. -/
theorem Expr.tidy_of_shape {c : Config} {e : Expr} {shape' : Shape} {scopes scopes' : Scopes}
    (hvalue : e.shape.substitute? scopes = none)
    (hrun : e.shape.tidy c scopes = .ok (shape', scopes')) :
    e.tidy c scopes = .ok ({ e with shape := shape' }, scopes') := by
  obtain ⟨shape, duplicated, grouped, slot⟩ := e
  simp only at hvalue hrun
  simp only [Expr.tidy, hvalue, hrun, bind, StateT.bind, Except.bind, pure_apply, get_apply]

/-- An access in the place of another: it is of the same variable, and its indices are those of the
other, tidied. -/
structure Access.Keeps (c : Config) (a a' : Access) : Prop where
  target_eq : a'.target = a.target
  indices_eq : ∃ scopes scopes', tidyOptionalExprs c a.indices scopes = .ok (a'.indices, scopes')

/-- Tidying an access keeps the variable and the indices. -/
theorem Access.tidy_keeps {c : Config} {a a' : Access} {scopes scopes' : Scopes}
    (hrun : a.tidy c scopes = .ok (a', scopes')) : a.Keeps c a' := by
  obtain ⟨target, reference, owner, indices, regularPush, argumentName⟩ := a
  rw [Access.tidy] at hrun
  obtain ⟨⟨owner', scopes₁⟩, -, hrun⟩ := exists_of_bind_eq_ok hrun
  obtain ⟨⟨indices', scopes₂⟩, hindices, hrun⟩ := exists_of_bind_eq_ok hrun
  have hfinish : c.finishAccess ⟨target, reference, owner', indices', regularPush, argumentName⟩
      scopes₂ = .ok (a', scopes') := hrun
  rw [Config.eq_of_finishAccess hfinish]
  exact ⟨rfl, scopes₁, scopes₂, hindices⟩

end GmlDecompiler

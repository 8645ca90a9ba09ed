import GmlDecompiler.Proofs.Naming.Arguments

/-!
# Names that stay

A fragment is asked for the names of its arguments again and again, and between the questions local
variables are added and forgotten. The fragment remembers exactly the names that it gave. So an
argument has the same name at every question, and no two arguments share one. The name that it gets
first is its base with as few underscores as keep it apart from the local variables of that moment
and from the names given so far.
-/

namespace GmlDecompiler

/-- The name with a number of underscores after it. -/
def suffixed (base : String) (count : Nat) : String :=
  base ++ String.ofList (List.replicate count '_')

/-- No underscores change nothing. -/
theorem suffixed_zero (base : String) : suffixed base 0 = base :=
  String.append_empty

/-- One underscore more may be appended first, as the search does. -/
theorem suffixed_succ (base : String) (count : Nat) :
    suffixed base (count + 1) = suffixed (base ++ "_") count := by
  have hfirst : String.ofList (List.replicate (count + 1) '_') =
      "_" ++ String.ofList (List.replicate count '_') := by
    rw [List.replicate_succ, String.ofList_cons]
    rfl
  rw [suffixed, suffixed, hfirst, String.append_assoc]

/-- Each underscore is added because the name before it was taken. -/
theorem Naming.exists_fresh_eq_suffixed (isTaken : String → Bool) (bound : Nat) (base : String) :
    ∃ count, fresh isTaken bound base = suffixed base count ∧
      ∀ fewer < count, isTaken (suffixed base fewer) = true := by
  induction bound generalizing base with
  | zero => exact ⟨0, (suffixed_zero base).symm, fun fewer hfewer => absurd hfewer (by omega)⟩
  | succ bound ih =>
    rw [fresh]
    split
    · rename_i htaken
      obtain ⟨count, hname, hearlier⟩ := ih (base ++ "_")
      refine ⟨count + 1, by rw [hname, suffixed_succ], fun fewer hfewer => ?_⟩
      cases fewer with
      | zero => rw [suffixed_zero, htaken]
      | succ fewer => rw [suffixed_succ, hearlier fewer (by omega)]
    · exact ⟨0, (suffixed_zero base).symm, fun fewer hfewer => absurd hfewer (by omega)⟩

/-- Who gives arguments their names: the name of an argument of a piece of code, if it has one. -/
abbrev Resolver := String → Nat → Option String

/-- The name an argument is shown by, whoever gives arguments their names. -/
def Fragment.nameArgumentBy (f : Fragment) (resolver : Resolver) (settings : Settings)
    (index : Nat) : String × Fragment :=
  let base := (resolver f.codeName index).getD (settings.unknownArgument index)
  let (name, naming) := f.naming.resolve f.locals index base
  (name, { f with naming := naming })

/-- In a configuration with named arguments the table of the configuration gives the names. -/
theorem Config.nameArgument_eq_by {c : Config} (hnamed : c.dialect.namedArguments = true)
    (f : Fragment) (index : Nat) :
    c.nameArgument f index =
      Prod.map some id (f.nameArgumentBy c.argumentNames.name? c.settings index) := by
  rw [nameArgument, if_pos hnamed]
  rfl

/-- What happens to the names in a fragment. -/
inductive NamingAction where
  /-- The name of an argument is asked for. -/
  | nameArgument (resolver : Resolver) (settings : Settings) (index : Nat)
  /-- A local variable is added. -/
  | addLocal (name : String)
  /-- A local variable is forgotten. -/
  | removeLocal (name : String)
  /-- A local variable is marked, so that it will be forgotten. -/
  | flagForPurge (name : String)
  /-- The marked local variables are forgotten. -/
  | purgeLocals

/-- A fragment in which names were asked for. -/
structure NamingRun where
  /-- The fragment. -/
  fragment : Fragment
  /-- The answers so far, each with the argument it is about. -/
  answers : List (Nat × String) := []

namespace NamingRun

/-- One action. -/
def act (r : NamingRun) : NamingAction → NamingRun
  | .nameArgument resolver settings index =>
    let (name, f) := r.fragment.nameArgumentBy resolver settings index
    ⟨f, r.answers ++ [(index, name)]⟩
  | .addLocal name => { r with fragment := r.fragment.addLocal name }
  | .removeLocal name => { r with fragment := r.fragment.removeLocal name }
  | .flagForPurge name => { r with fragment := r.fragment.flagForPurge name }
  | .purgeLocals => { r with fragment := r.fragment.purgeLocals }

/-- Several actions. -/
def run (r : NamingRun) (actions : List NamingAction) : NamingRun :=
  actions.foldl act r

/-- A name that is neither a local variable nor an answer. -/
def IsFree (r : NamingRun) (name : String) : Prop :=
  name ∉ r.fragment.locals ∧ ∀ i, (i, name) ∉ r.answers

/-- The name is what adding underscores to the base ends with: it is free, and with fewer
underscores it is not. -/
def FirstFree (r : NamingRun) (base name : String) : Prop :=
  ∃ count, name = suffixed base count ∧ r.IsFree name ∧
    ∀ fewer < count, ¬ r.IsFree (suffixed base fewer)

/-- The fragment remembers the answers and nothing else, and no answer is about two arguments. -/
structure Remembered (r : NamingRun) : Prop where
  byIndex : ∀ {i : Nat} {name : String},
    r.fragment.naming.byIndex[i]? = some name ↔ (i, name) ∈ r.answers
  taken : ∀ {name : String}, name ∈ r.fragment.naming.taken ↔ ∃ i, (i, name) ∈ r.answers
  once : ∀ {i j : Nat} {name : String}, (i, name) ∈ r.answers → (j, name) ∈ r.answers → i = j

variable {r : NamingRun}

/-- An action on the local variables leaves the names as they are. -/
theorem Remembered.of_naming_eq {f : Fragment} (hr : r.Remembered)
    (hnaming : f.naming = r.fragment.naming) : Remembered { r with fragment := f } where
  byIndex := by rw [hnaming]; exact hr.byIndex
  taken := by rw [hnaming]; exact hr.taken
  once := hr.once

/-- The names that are not free are those the fragment keeps an argument apart from. -/
theorem Remembered.isFree_iff (hr : r.Remembered) (name : String) :
    r.IsFree name ↔
      (r.fragment.locals.contains name || r.fragment.naming.taken.contains name) = false := by
  rw [Bool.or_eq_false_iff, ← Bool.not_eq_true, ← Bool.not_eq_true, List.contains_iff_mem,
    Std.ExtTreeSet.contains_iff_mem, hr.taken, not_exists, IsFree]

/-- An argument without a name gets the first free one. -/
theorem Remembered.firstFree (hr : r.Remembered) {index : Nat}
    (hnew : ∀ name, (index, name) ∉ r.answers) (base : String) :
    let resolved := r.fragment.naming.resolve r.fragment.locals index base
    r.FirstFree base resolved.1 ∧
      resolved.2 = ⟨r.fragment.naming.byIndex.insert index resolved.1,
        r.fragment.naming.taken.insert resolved.1⟩ := by
  have hunnamed : r.fragment.naming.byIndex[index]? = none := by
    cases hname : r.fragment.naming.byIndex[index]? with
    | none => rfl
    | some name => exact absurd (hr.byIndex.mp hname) (hnew name)
  intro resolved
  have hresolved : resolved = r.fragment.naming.resolve r.fragment.locals index base := rfl
  simp only [Naming.resolve, hunnamed] at hresolved
  refine ⟨?_, by rw [hresolved]⟩
  obtain ⟨hlocal, htaken⟩ := Naming.fresh_apart r.fragment.naming r.fragment.locals base
  obtain ⟨count, hname, hearlier⟩ := Naming.exists_fresh_eq_suffixed
    (fun name => r.fragment.locals.contains name || r.fragment.naming.taken.contains name)
    (r.fragment.locals.length + r.fragment.naming.taken.size) base
  rw [hresolved]
  refine ⟨count, hname, ⟨hlocal, fun i hanswer => htaken (hr.taken.mpr ⟨i, hanswer⟩)⟩, ?_⟩
  intro fewer hfewer hfree
  rw [hr.isFree_iff, hearlier fewer hfewer] at hfree
  cases hfree

/-- An argument that has a name keeps it. -/
theorem Remembered.resolve_eq (hr : r.Remembered) {index : Nat} {name : String}
    (hanswer : (index, name) ∈ r.answers) (base : String) :
    r.fragment.naming.resolve r.fragment.locals index base = (name, r.fragment.naming) := by
  simp only [Naming.resolve, hr.byIndex.mpr hanswer]

/-- A new fragment remembers no answers. -/
theorem remembered_start (codeName : String) (name : Option String) (argCount : UInt16) :
    Remembered ⟨.start codeName name argCount, []⟩ where
  byIndex := by simp [Fragment.start]
  taken := by simp [Fragment.start]
  once := fun hanswer => absurd hanswer List.not_mem_nil

/-- The answer about an argument is remembered. -/
theorem Remembered.nameArgument (hr : r.Remembered) (resolver : Resolver) (settings : Settings)
    (index : Nat) : (r.act (.nameArgument resolver settings index)).Remembered := by
  let base := (resolver r.fragment.codeName index).getD (settings.unknownArgument index)
  let resolved := r.fragment.naming.resolve r.fragment.locals index base
  show Remembered ⟨{ r.fragment with naming := resolved.2 }, r.answers ++ [(index, resolved.1)]⟩
  by_cases hknown : ∃ name, (index, name) ∈ r.answers
  · obtain ⟨name, hanswer⟩ := hknown
    have hresolved : resolved = (name, r.fragment.naming) := hr.resolve_eq hanswer base
    rw [hresolved]
    have hmem (p : Nat × String) : p ∈ r.answers ++ [(index, name)] ↔ p ∈ r.answers := by
      rw [List.mem_append, List.mem_singleton]
      exact ⟨fun h => h.elim id fun hp => hp ▸ hanswer, .inl⟩
    constructor <;> simp only [hmem]
    · exact hr.byIndex
    · exact hr.taken
    · exact hr.once
  · obtain ⟨⟨-, -, hfree, -⟩, hnaming⟩ := hr.firstFree (not_exists.mp hknown) base
    replace hnaming : resolved.2 = _ := hnaming
    have hunused (i : Nat) : (i, resolved.1) ∉ r.answers := hfree.2 i
    constructor <;> simp only [hnaming, List.mem_append, List.mem_singleton, Prod.mk.injEq,
      Std.ExtTreeMap.getElem?_insert, Std.ExtTreeSet.mem_insert, Std.LawfulEqCmp.compare_eq_iff_eq]
    · intro i name
      split
      · rename_i hindex
        subst hindex
        rw [Option.some_inj]
        exact ⟨fun h => .inr ⟨rfl, h.symm⟩,
          fun h => h.elim (fun hanswer => absurd ⟨name, hanswer⟩ hknown) fun h => h.2.symm⟩
      · rename_i hother
        exact hr.byIndex.trans ⟨.inl, fun h => h.elim id fun h => absurd h.1.symm hother⟩
    · intro name
      rw [hr.taken]
      constructor
      · rintro (hsame | ⟨i, hanswer⟩)
        · exact ⟨index, .inr ⟨rfl, hsame.symm⟩⟩
        · exact ⟨i, .inl hanswer⟩
      · rintro ⟨i, hanswer | ⟨-, hsame⟩⟩
        · exact .inr ⟨i, hanswer⟩
        · exact .inl hsame.symm
    · -- the new name is the answer about no other argument
      rintro i j name (hi | ⟨rfl, rfl⟩) (hj | ⟨rfl, hname⟩)
      · exact hr.once hi hj
      · exact absurd (hname ▸ hi) (hunused i)
      · exact absurd hj (hunused j)
      · rfl

/-- Every action keeps what is remembered. -/
theorem Remembered.act (hr : r.Remembered) (action : NamingAction) :
    (r.act action).Remembered := by
  cases action with
  | nameArgument resolver settings index => exact hr.nameArgument resolver settings index
  | addLocal name =>
    refine hr.of_naming_eq ?_
    unfold Fragment.addLocal
    split <;> rfl
  | removeLocal name => exact hr.of_naming_eq rfl
  | flagForPurge name =>
    refine hr.of_naming_eq ?_
    unfold Fragment.flagForPurge
    split <;> rfl
  | purgeLocals => exact hr.of_naming_eq rfl

/-- No action gives the code another name. -/
theorem codeName_act (action : NamingAction) :
    (r.act action).fragment.codeName = r.fragment.codeName := by
  cases action with
  | nameArgument | removeLocal | purgeLocals => rfl
  | addLocal name =>
    rw [act, Fragment.addLocal]
    split <;> rfl
  | flagForPurge name =>
    rw [act, Fragment.flagForPurge]
    split <;> rfl

/-- Every run keeps what is remembered, and the name of the code. -/
theorem Remembered.run (hr : r.Remembered) (actions : List NamingAction) :
    (r.run actions).Remembered ∧ (r.run actions).fragment.codeName = r.fragment.codeName := by
  induction actions generalizing r with
  | nil => exact ⟨hr, rfl⟩
  | cons action actions ih =>
    obtain ⟨hrest, hname⟩ := ih (hr.act action)
    exact ⟨hrest, hname.trans (codeName_act action)⟩

end NamingRun

/-- Whatever is asked and whatever happens to the local variables, all answers about an argument are
the same name, and answers about different arguments are different names. The first answer about an
argument is its base, with the least number of underscores that makes it a free name. -/
theorem argument_names_stable_and_unique (codeName : String) (name : Option String)
    (argCount : UInt16) (actions : List NamingAction) :
    let r := NamingRun.run ⟨.start codeName name argCount, []⟩ actions
    (∀ i j a b, (i, a) ∈ r.answers → (j, b) ∈ r.answers → (i = j ↔ a = b)) ∧
      ∀ resolver settings index, (∀ a, (index, a) ∉ r.answers) →
        r.FirstFree ((resolver codeName index).getD (settings.unknownArgument index))
          (r.fragment.nameArgumentBy resolver settings index).1 := by
  intro r
  obtain ⟨hr, hname⟩ := (NamingRun.remembered_start codeName name argCount).run actions
  refine ⟨fun i j a b hi hj => ⟨?_, ?_⟩, fun resolver settings index hnew => ?_⟩
  · rintro rfl
    exact Option.some.inj ((hr.byIndex.mpr hi).symm.trans (hr.byIndex.mpr hj))
  · rintro rfl
    exact hr.once hi hj
  · have hcode : r.fragment.codeName = codeName := hname
    rw [← hcode]
    exact (hr.firstFree hnew _).1

namespace Sample

/-- Every argument is called `value`. -/
def calledValue : Resolver :=
  fun _ _ => some "value"

/-- The first argument is named beside a local variable `value`, the second one without it, and the
first one again beside a local variable of its own name. -/
def namedTwice : List NamingAction :=
  [.addLocal "value", .nameArgument calledValue {} 0, .flagForPurge "value", .purgeLocals,
    .nameArgument calledValue {} 1, .addLocal "value_", .nameArgument calledValue {} 0]

end Sample

/-- The same argument is asked for twice, with local variables coming and going in between. -/
theorem argument_names_stable_and_unique_namedTwice :
    let r := NamingRun.run ⟨.start "gml_Script_f" (some "f") 2, []⟩ Sample.namedTwice
    r.answers = [(0, "value_"), (1, "value"), (0, "value_")] ∧
      (r.fragment.nameArgumentBy Sample.calledValue {} 2).1 = "value__" ∧
      r.FirstFree "value" "value__" := by
  intro r
  have hanswers : r.answers = [(0, "value_"), (1, "value"), (0, "value_")] := by decide +kernel
  have hname : (r.fragment.nameArgumentBy Sample.calledValue {} 2).1 = "value__" := by
    decide +kernel
  obtain ⟨-, hfirst⟩ :=
    argument_names_stable_and_unique "gml_Script_f" (some "f") 2 Sample.namedTwice
  have hfree := hfirst Sample.calledValue {} 2 (by
    intro a hanswer
    change (2, a) ∈ r.answers at hanswer
    rw [hanswers] at hanswer
    simp at hanswer)
  exact ⟨hanswers, hname, hname ▸ hfree⟩

end GmlDecompiler

import GmlDecompiler.Proofs.Naming.Tidying

/-!
# Arguments that are noted

All that tidying does to the scope around a part of a tree is to note arguments one after another,
and inside a routine to name each of them. `Succeeds` says so of a computation, together with
something that holds of what it gives and keeps holding however far the scope grows later. What is
put together from such computations is such a computation itself.
-/

namespace GmlDecompiler

namespace Config

/-- The scope after an argument was noted. Inside a routine the argument has a name then. -/
def note (c : Config) (nested : Bool) (f : Fragment) (index : Nat) : Fragment :=
  if nested then (c.nameArgument (f.noteArgument index) index).2 else f.noteArgument index

/-- The scope after arguments were noted one after another. -/
def noteAll (c : Config) (nested : Bool) (f : Fragment) (indices : List Nat) : Fragment :=
  indices.foldl (c.note nested) f

/-- The name that an access is shown by in a scope: inside a routine an argument is shown by the
name that the scope has for it, in a dialect with such names. -/
def nameShown (c : Config) (nested : Bool) (f : Fragment) (a : Access) : Option String :=
  match a.argumentIndex? with
  | none => a.argumentName
  | some index =>
    if nested then if c.dialect.namedArguments then f.naming.byIndex[index]? else none
    else a.argumentName

variable {c : Config} {nested : Bool} {f g : Fragment}

/-- Noting no arguments changes nothing. -/
@[simp] theorem noteAll_nil : c.noteAll nested f [] = f := rfl

/-- Arguments in two parts are noted one part after the other. -/
theorem noteAll_append (first second : List Nat) :
    c.noteAll nested f (first ++ second) = c.noteAll nested (c.noteAll nested f first) second :=
  List.foldl_append

/-- A scope in which an argument is noted grows. -/
theorem grows_note (index : Nat) : f.Grows False (c.note nested f index) := by
  unfold note
  split
  · exact (c.grows_nameArgument_noteArgument f index).weaken False.elim
  · exact f.grows_noteArgument index

/-- A scope in which arguments are noted grows. -/
theorem grows_noteAll (indices : List Nat) : f.Grows False (c.noteAll nested f indices) := by
  induction indices generalizing f with
  | nil => exact .refl False f
  | cons index indices ih => exact (grows_note index).trans ih

/-- Noting arguments does not touch the values of a struct literal. -/
theorem structArguments_noteAll (indices : List Nat) :
    (c.noteAll nested f indices).structArguments = f.structArguments :=
  (grows_noteAll indices).structArguments_eq

/-- A noted argument is not above the highest one, as numbers of 32 bits. -/
theorem le_maxArgument_note (index : Nat) :
    Int32.ofNat index ≤ (c.note nested f index).maxArgument := by
  unfold note
  split
  · rw [c.maxArgument_nameArgument]
    exact (f.maxArgument_noteArgument index).2
  · exact (f.maxArgument_noteArgument index).2

/-- An argument that was noted is not noted again. -/
theorem note_of_grows {index : Nat} (hgrows : (c.note nested f index).Grows False g) :
    c.note nested g index = g := by
  have hle : Int32.ofNat index ≤ g.maxArgument :=
    Int32.le_trans (le_maxArgument_note index) hgrows.max_le
  have hnoted : g.noteArgument index = g := by
    have hmax : max g.maxArgument (Int32.ofNat index) = g.maxArgument := by
      rw [Fragment.max_eq]
      split
      · exact Int32.le_antisymm hle ‹_›
      · rfl
    cases g
    simp only [Fragment.noteArgument] at hmax ⊢
    rw [hmax]
  cases nested with
  | false => exact hnoted
  | true =>
    simp only [note, if_true, hnoted]
    unfold nameArgument
    split
    · rename_i hnamed
      obtain ⟨name, -, hbyIndex⟩ := nameArgument_eq hnamed (f.noteArgument index) index
      have hkept := hgrows.kept hbyIndex
      simp only [Fragment.nameArgument, Naming.resolve, hkept]
      cases g
      rfl
    · rfl

/-- The name that an access is shown by does not depend on whether it is shown already. -/
theorem nameShown_nameShown (a : Access) :
    c.nameShown nested f { a with argumentName := c.nameShown nested f a } =
      c.nameShown nested f a := by
  have hindex (name : Option String) :
      ({ a with argumentName := name } : Access).argumentIndex? = a.argumentIndex? := rfl
  unfold nameShown
  rw [hindex]
  cases a.argumentIndex? with
  | none => rfl
  | some index => cases nested <;> rfl

end Config

section Access

variable (c : Config) (a : Access) (f : Fragment) (outer : Scopes)

/-- Finishing an access notes the argument that it reads. The name that the access is shown by is
the one that the scope has for the argument from then on. -/
theorem Config.finishAccess_notes {g : Fragment}
    (hgrows : (c.noteAll (!outer.isEmpty) f a.argumentIndex?.toList).Grows False g) :
    c.finishAccess a (f :: outer) = .ok
      ({ a with argumentName := c.nameShown (!outer.isEmpty) g a },
        c.noteAll (!outer.isEmpty) f a.argumentIndex?.toList :: outer) := by
  unfold Config.finishAccess Config.nameShown
  cases hindex : a.argumentIndex? with
  | none =>
    cases a
    rfl
  | some index =>
    rw [hindex] at hgrows
    match outer with
    | [] =>
      cases a
      rfl
    | _ :: _ =>
      have hname : (c.nameArgument (f.noteArgument index) index).1 =
          if c.dialect.namedArguments then g.naming.byIndex[index]? else none := by
        split
        · rename_i hnamed
          obtain ⟨name, hname, hbyIndex⟩ := Config.nameArgument_eq hnamed (f.noteArgument index) index
          rw [hname, hgrows.kept hbyIndex]
        · rename_i hnamed
          simp only [nameArgument, if_neg hnamed]
      simp only [Tidying.noteArgument, hname]
      rfl

end Access

/-- In every scope inside of some others the computation succeeds, and all that it does to the scope
is to note arguments. What it gives has a property that refers to the arguments and to the scope,
and keeps it when the scope grows. -/
def Succeeds {α : Type} (c : Config) (outer : Scopes) (x : Tidying α)
    (Q : Fragment → List Nat → α → Prop) : Prop :=
  ∀ f, ∃ a noted, x (f :: outer) = .ok (a, c.noteAll (!outer.isEmpty) f noted :: outer) ∧
    ∀ g, (c.noteAll (!outer.isEmpty) f noted).Grows False g → Q g noted a

namespace Succeeds

variable {c : Config} {outer : Scopes} {α β : Type} {x : Tidying α}
  {P : Fragment → List Nat → α → Prop} {Q : Fragment → List Nat → β → Prop}

/-- A computation that only gives a value notes nothing. -/
theorem pure {b : β} (hb : ∀ g, Q g [] b) : Succeeds c outer (pure b) Q :=
  fun _ => ⟨b, [], rfl, fun g _ => hb g⟩

/-- Two computations in a row. What the first one gave keeps its property while the second one
runs. -/
theorem bind {k : α → Tidying β} (hx : Succeeds c outer x P)
    (hk : ∀ a first, Succeeds c outer (k a) fun g second b => P g first a → Q g (first ++ second) b) :
    Succeeds c outer (x >>= k) Q := by
  intro f
  obtain ⟨a, first, hfirst, ha⟩ := hx f
  obtain ⟨b, second, hsecond, hb⟩ := hk a first (c.noteAll (!outer.isEmpty) f first)
  refine ⟨b, first ++ second, ?_, fun g hgrows => ?_⟩
  · rw [Config.noteAll_append]
    exact Tidying.bind_eq hfirst hsecond
  · rw [Config.noteAll_append] at hgrows
    exact hb g hgrows (ha g ((Config.grows_noteAll second).trans hgrows))

/-- What a computation gives may be described more loosely. -/
theorem imp {Q : Fragment → List Nat → α → Prop} (hx : Succeeds c outer x P)
    (hPQ : ∀ g noted a, P g noted a → Q g noted a) : Succeeds c outer x Q := by
  intro f
  obtain ⟨a, noted, hrun, ha⟩ := hx f
  exact ⟨a, noted, hrun, fun g hgrows => hPQ g noted a (ha g hgrows)⟩

/-- Two things that hold of what one computation gives. -/
theorem and {R : Fragment → α → Prop} (hP : Succeeds c outer x P)
    (hR : Succeeds c outer x fun g _ a => R g a) :
    Succeeds c outer x fun g noted a => P g noted a ∧ R g a := by
  intro f
  obtain ⟨a, noted, hrun, ha⟩ := hP f
  obtain ⟨b, noted', hsame, hb⟩ := hR f
  obtain ⟨rfl, hscopes⟩ := Prod.mk.inj (Except.ok.inj (hrun.symm.trans hsame))
  have hscope := (List.cons.inj hscopes).1
  refine ⟨a, noted, hrun, fun g hgrows => ⟨ha g hgrows, hb g ?_⟩⟩
  rwa [← hscope]

/-- A computation whose result is put into a larger one. -/
theorem map {result : α → β} (hx : Succeeds c outer x P)
    (hresult : ∀ g noted a, P g noted a → Q g noted (result a)) :
    Succeeds c outer (x >>= fun a => Pure.pure (result a)) Q := by
  intro f
  obtain ⟨a, noted, hrun, ha⟩ := hx f
  exact ⟨result a, noted, Tidying.bind_eq hrun rfl, fun g hgrows => hresult g noted a (ha g hgrows)⟩

end Succeeds

end GmlDecompiler

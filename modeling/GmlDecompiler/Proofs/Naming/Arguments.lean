import GmlDecompiler.Tidy
import Std.Data.ExtTreeMap.Lemmas
import Std.Data.ExtTreeSet.Lemmas

/-!
# The names of arguments

A fragment names its arguments one at a time and remembers every name. The names are kept apart
from each other and from the local variables. While code is tidied the fragment only grows: names
are added and the highest argument rises, and an argument that raises it has a name.
-/

namespace GmlDecompiler

namespace Naming

/-- Of the names that are as long as one of them, fewer are longer than it. -/
theorem countP_longer_lt {all : List String} {name : String} (hname : name ∈ all) :
    all.countP (name.length < ·.length) < all.countP (name.length ≤ ·.length) := by
  have hperm := List.perm_cons_erase hname
  have hrest : (all.erase name).countP (name.length < ·.length) ≤
      (all.erase name).countP (name.length ≤ ·.length) := by
    apply List.countP_mono_left
    intro other _ hlonger
    simp only [decide_eq_true_eq] at hlonger ⊢
    omega
  rw [hperm.countP_eq, hperm.countP_eq, List.countP_cons_of_neg (by simp),
    List.countP_cons_of_pos (by simp)]
  omega

/-- Adding underscores leads to a name that is not taken, if at most `bound` taken names are as
long as the name or longer. -/
theorem fresh_not_taken {isTaken : String → Bool} {all : List String}
    (hall : ∀ name, isTaken name = true → name ∈ all) (bound : Nat) (name : String)
    (hbound : all.countP (name.length ≤ ·.length) ≤ bound) :
    isTaken (fresh isTaken bound name) = false := by
  induction bound generalizing name with
  | zero =>
    rw [fresh, Bool.eq_false_iff]
    intro htaken
    have hzero := List.countP_eq_zero.mp (Nat.le_zero.mp hbound) name (hall name htaken)
    simp at hzero
  | succ bound ih =>
    rw [fresh]
    split
    · rename_i htaken
      have hfewer := countP_longer_lt (hall name htaken)
      have hlength : (name ++ "_").length = name.length + 1 :=
        String.length_append name "_"
      apply ih
      simp only [hlength, Nat.succ_le_iff]
      omega
    · simpa using ‹¬ isTaken name = true›

/-- The name that an argument gets is neither a local variable nor the name of another
argument. -/
theorem fresh_apart (n : Naming) (locals : List String) (base : String) :
    let isTaken := fun name => locals.contains name || n.taken.contains name
    let name := fresh isTaken (locals.length + n.taken.size) base
    name ∉ locals ∧ name ∉ n.taken := by
  intro isTaken name
  have hall (other : String) (hother : isTaken other = true) :
      other ∈ locals ++ n.taken.toList := by
    simpa [isTaken, List.contains_iff_mem] using hother
  have hcount : (locals ++ n.taken.toList).countP (base.length ≤ ·.length) ≤
      locals.length + n.taken.size := by
    have hle := List.countP_le_length (p := (base.length ≤ ·.length))
      (l := locals ++ n.taken.toList)
    rwa [List.length_append, Std.ExtTreeSet.length_toList] at hle
  have hfresh : (locals.contains name || n.taken.contains name) = false :=
    fresh_not_taken hall _ base hcount
  rw [Bool.or_eq_false_iff] at hfresh
  refine ⟨fun hmem => ?_, fun hmem => ?_⟩
  · rw [List.contains_iff_mem.mpr hmem] at hfresh
    exact Bool.false_ne_true hfresh.1.symm
  · rw [Std.ExtTreeSet.contains_iff_mem.mpr hmem] at hfresh
    exact Bool.false_ne_true hfresh.2.symm

/-- An argument that has a name is among those that are named. -/
theorem mem_byIndex {n : Naming} {i : Nat} {name : String}
    (hname : n.byIndex[i]? = some name) : i ∈ n.byIndex := by
  rw [Std.ExtTreeMap.mem_iff_isSome_getElem?, hname]
  rfl

/-- Names that are given once each, and to no local variable. -/
structure Consistent (locals : List String) (n : Naming) : Prop where
  taken : ∀ {i : Nat} {name : String}, n.byIndex[i]? = some name → name ∈ n.taken
  apart : ∀ {i : Nat} {name : String}, n.byIndex[i]? = some name → name ∉ locals
  once : ∀ {i j : Nat} {name : String},
    n.byIndex[i]? = some name → n.byIndex[j]? = some name → i = j

/-- A new fragment has given no names. -/
theorem consistent_empty (locals : List String) : Consistent locals {} := by
  constructor <;> simp

variable {n : Naming} {locals : List String} {index : Nat} {base : String}

/-- The name that is resolved is remembered. -/
theorem byIndex_resolve :
    (n.resolve locals index base).2.byIndex[index]? = some (n.resolve locals index base).1 := by
  unfold resolve
  split
  · assumption
  · simp

/-- Names given before stay. -/
theorem byIndex_resolve_of_eq_some {i : Nat} {name : String} (hname : n.byIndex[i]? = some name) :
    (n.resolve locals index base).2.byIndex[i]? = some name := by
  unfold resolve
  split
  · exact hname
  · rename_i hindex
    simp only [Std.ExtTreeMap.getElem?_insert]
    split
    · rename_i heq
      rw [Std.LawfulEqCmp.compare_eq_iff_eq] at heq
      rw [heq, hname] at hindex
      cases hindex
    · exact hname

/-- Names that are taken stay taken. -/
theorem mem_taken_resolve {name : String} (hname : name ∈ n.taken) :
    name ∈ (n.resolve locals index base).2.taken := by
  unfold resolve
  split
  · exact hname
  · exact Std.ExtTreeSet.mem_insert.mpr (.inr hname)

/-- Only the argument that is asked for gets a name. -/
theorem eq_or_mem_of_mem_byIndex_resolve {i : Nat}
    (hi : i ∈ (n.resolve locals index base).2.byIndex) : i = index ∨ i ∈ n.byIndex := by
  unfold resolve at hi
  split at hi
  · exact .inr hi
  · rw [Std.ExtTreeMap.mem_insert, Std.LawfulEqCmp.compare_eq_iff_eq] at hi
    exact hi.imp_left Eq.symm

/-- Resolving a name keeps the names apart. -/
theorem Consistent.resolve (hn : n.Consistent locals) :
    (n.resolve locals index base).2.Consistent locals := by
  unfold Naming.resolve
  split
  · exact hn
  · rename_i hindex
    obtain ⟨hlocal, htaken⟩ := fresh_apart n locals base
    constructor <;>
      simp only [Std.ExtTreeMap.getElem?_insert, Std.ExtTreeSet.mem_insert,
        Std.LawfulEqCmp.compare_eq_iff_eq]
    · intro i name hname
      split at hname
      · exact .inl (Option.some.inj hname)
      · exact .inr (hn.taken hname)
    · intro i name hname
      split at hname
      · cases hname
        exact hlocal
      · exact hn.apart hname
    · intro i j name hi hj
      -- the new name is not the name of an argument that had one
      split at hi <;> split at hj
      · omega
      · cases hi
        exact absurd (hn.taken hj) htaken
      · cases hj
        exact absurd (hn.taken hi) htaken
      · exact hn.once hi hj

end Naming

namespace Fragment

/-- What happens to a fragment while code is tidied inside it: arguments get names, the highest
argument rises, and all else stays. If arguments are named as they are met, the highest one is
either as before or has a name. -/
structure Grows (named : Prop) (f f' : Fragment) : Prop where
  frame : f' = { f with naming := f'.naming, maxArgument := f'.maxArgument }
  max_le : f.maxArgument ≤ f'.maxArgument
  kept : ∀ {i : Nat} {name : String},
    f.naming.byIndex[i]? = some name → f'.naming.byIndex[i]? = some name
  taken : ∀ {name : String}, name ∈ f.naming.taken → name ∈ f'.naming.taken
  consistent : f.naming.Consistent f.locals → f'.naming.Consistent f'.locals
  covered : named → f'.maxArgument = f.maxArgument ∨
    ∃ i name, f'.naming.byIndex[i]? = some name ∧ f'.maxArgument = Int32.ofNat i

namespace Grows

variable {named : Prop} {f g h : Fragment}

/-- A fragment that stays as it is has grown by nothing. -/
theorem refl (named : Prop) (f : Fragment) : Grows named f f where
  frame := by cases f; rfl
  max_le := Int32.le_refl _
  kept := id
  taken := id
  consistent := id
  covered := fun _ => .inl rfl

/-- A fragment that grows twice grows. The highest argument has a name if the second step raised it,
and otherwise as after the first step. -/
theorem trans (hfg : Grows named f g) (hgh : Grows named g h) : Grows named f h where
  frame := by
    rw [hgh.frame, hfg.frame]
  max_le := Int32.le_trans hfg.max_le hgh.max_le
  kept := fun hname => hgh.kept (hfg.kept hname)
  taken := fun hname => hgh.taken (hfg.taken hname)
  consistent := fun hf => hgh.consistent (hfg.consistent hf)
  covered := by
    intro hnamed
    rcases hgh.covered hnamed with hsame | hnew
    · rcases hfg.covered hnamed with hsame' | ⟨i, name, hname, hmax⟩
      · exact .inl (hsame.trans hsame')
      · exact .inr ⟨i, name, hgh.kept hname, hsame.trans hmax⟩
    · exact .inr hnew

/-- Whether arguments are named may be asked less often. -/
theorem weaken {named' : Prop} (hfg : Grows named f g) (himp : named' → named) :
    Grows named' f g :=
  { hfg with covered := fun hnamed => hfg.covered (himp hnamed) }

/-- Growing leaves the call of the parent constructor. -/
theorem parentCall_eq (hfg : Grows named f g) : g.parentCall = f.parentCall := by
  rw [hfg.frame]

/-- Growing leaves the values of the struct arguments. -/
theorem structArguments_eq (hfg : Grows named f g) : g.structArguments = f.structArguments := by
  rw [hfg.frame]

end Grows

/-- The higher of two argument indices is one of them. -/
theorem max_eq (m n : Int32) : max m n = if m ≤ n then n else m := rfl

/-- After an argument was noted, the highest one is as before or is that argument. -/
theorem maxArgument_noteArgument_eq (f : Fragment) (index : Nat) :
    (f.noteArgument index).maxArgument = f.maxArgument ∨
      (f.noteArgument index).maxArgument = Int32.ofNat index := by
  simp only [noteArgument, max_eq]
  split
  · exact .inr rfl
  · exact .inl rfl

/-- Noting an argument lowers nothing, and the argument is not above the highest one then. Both are
compared as numbers of 32 bits. -/
theorem maxArgument_noteArgument (f : Fragment) (index : Nat) :
    f.maxArgument ≤ (f.noteArgument index).maxArgument ∧
      Int32.ofNat index ≤ (f.noteArgument index).maxArgument := by
  simp only [noteArgument, max_eq]
  split
  · exact ⟨‹_›, Int32.le_refl _⟩
  · exact ⟨Int32.le_refl _, Std.le_of_not_ge ‹_›⟩

/-- A noted argument without a name. -/
theorem grows_noteArgument (f : Fragment) (index : Nat) :
    Grows False f (f.noteArgument index) where
  frame := rfl
  max_le := (f.maxArgument_noteArgument index).1
  kept := id
  taken := id
  consistent := id
  covered := False.elim

/-- The lowest index that is too high for a 32-bit count of parameters, `2 ^ 31 - 1`. -/
def indexLimit : Nat := 0x7fffffff

/-- The highest argument stays below the limit if it was below and all arguments that are named
are. -/
theorem Grows.maxArgument_lt {named : Prop} {f g : Fragment} (hfg : Grows named f g)
    (hnamed : named) (hf : f.maxArgument.toInt < indexLimit)
    (hsmall : ∀ i ∈ g.naming.byIndex, i < indexLimit) : g.maxArgument.toInt < indexLimit := by
  rcases hfg.covered hnamed with hsame | ⟨i, name, hname, hmax⟩
  · rw [hsame]
    exact hf
  · have hi := hsmall i (Naming.mem_byIndex hname)
    have hvalue : (Int32.ofNat i).toInt = i :=
      Int32.toInt_ofNat_of_lt (by unfold indexLimit at hi; omega)
    rw [hmax, hvalue]
    omega

/-- There is one parameter more than the highest argument. At the limit the sum wraps around to the
lowest number of 32 bits, and there is no parameter at all. -/
theorem parameterCount_eq (f : Fragment) :
    f.parameterCount =
      if f.maxArgument.toInt < indexLimit then (f.maxArgument.toInt + 1).toNat else 0 := by
  have hlow := f.maxArgument.le_toInt
  have hhigh := f.maxArgument.toInt_lt
  have hsum : (f.maxArgument + 1).toInt = (f.maxArgument.toInt + 1).bmod (2 ^ 32) := by
    rw [Int32.toInt_add, show Int32.toInt 1 = 1 from rfl]
  rw [parameterCount, hsum]
  unfold indexLimit
  by_cases hfits : f.maxArgument.toInt < (0x7fffffff : Nat)
  · rw [if_pos hfits, Int.bmod_eq_of_le (by omega) (by omega)]
  · have hmax : f.maxArgument.toInt = 0x7fffffff := by omega
    rw [hmax]
    decide

/-- An argument that was noted has a parameter exactly if its index and the highest argument are
below the limit. -/
theorem lt_parameterCount_iff {f : Fragment} {index : Nat}
    (hle : Int32.ofNat index ≤ f.maxArgument) :
    index < f.parameterCount ↔ index < indexLimit ∧ f.maxArgument.toInt < indexLimit := by
  rw [parameterCount_eq]
  constructor
  · intro hlt
    by_cases hfits : f.maxArgument.toInt < indexLimit
    · rw [if_pos hfits] at hlt
      constructor <;> omega
    · rw [if_neg hfits] at hlt
      omega
  · rintro ⟨hindex, hfits⟩
    have hvalue : (Int32.ofNat index).toInt = index :=
      Int32.toInt_ofNat_of_lt (by unfold indexLimit at hindex; omega)
    rw [Int32.le_iff_toInt_le, hvalue] at hle
    rw [if_pos hfits]
    omega

end Fragment

namespace Config

variable {c : Config}

/-- In a dialect with named arguments every argument gets a name, and keeps it. -/
theorem nameArgument_eq (hnamed : c.dialect.namedArguments = true) (f : Fragment)
    (index : Nat) :
    ∃ name, (c.nameArgument f index).1 = some name ∧
      (c.nameArgument f index).2.naming.byIndex[index]? = some name := by
  simp only [nameArgument, hnamed, if_true]
  exact ⟨_, rfl, Naming.byIndex_resolve⟩

/-- No other argument gets a name. -/
theorem eq_or_mem_of_mem_byIndex_nameArgument {f : Fragment} {index i : Nat}
    (hi : i ∈ (c.nameArgument f index).2.naming.byIndex) : i = index ∨ i ∈ f.naming.byIndex := by
  unfold nameArgument at hi
  split at hi
  · exact Naming.eq_or_mem_of_mem_byIndex_resolve hi
  · exact .inr hi

/-- Naming an argument does not note it. -/
theorem maxArgument_nameArgument (c : Config) (f : Fragment) (index : Nat) :
    (c.nameArgument f index).2.maxArgument = f.maxArgument := by
  unfold nameArgument
  split <;> rfl

/-- Naming an argument that was noted before. -/
theorem grows_nameArgument (c : Config) (f : Fragment) (index : Nat) (named : Prop) :
    f.Grows named (c.nameArgument f index).2 := by
  unfold nameArgument
  split
  · exact {
      frame := rfl
      max_le := Int32.le_refl _
      kept := Naming.byIndex_resolve_of_eq_some
      taken := Naming.mem_taken_resolve
      consistent := Naming.Consistent.resolve
      covered := fun _ => .inl rfl }
  · exact .refl named f

/-- Noting an argument together with its name. -/
theorem grows_nameArgument_noteArgument (c : Config) (f : Fragment) (index : Nat) :
    f.Grows (c.dialect.namedArguments = true)
      (c.nameArgument (f.noteArgument index) index).2 := by
  have hnote := f.grows_noteArgument index
  have hname := c.grows_nameArgument (f.noteArgument index) index False
  have hboth := hnote.trans hname
  refine { hboth with covered := fun hnamed => ?_ }
  obtain ⟨name, -, hbyIndex⟩ := nameArgument_eq hnamed (f.noteArgument index) index
  have hsame := c.maxArgument_nameArgument (f.noteArgument index) index
  rcases f.maxArgument_noteArgument_eq index with hmax | hmax
  · exact .inl (hsame.trans hmax)
  · exact .inr ⟨index, name, hbyIndex, hsame.trans hmax⟩

/-- Naming the parameters of a fragment. -/
theorem grows_parameters (c : Config) (count first : Nat) (f : Fragment) (named : Prop) :
    f.Grows named (c.parameters count first f).2 := by
  induction count generalizing first f with
  | zero => exact .refl named f
  | succ count ih => exact (c.grows_nameArgument f first named).trans (ih _ _)

/-- Naming the parameters of a fragment gives as many names, and notes no argument. -/
theorem parameters_size (c : Config) (count first : Nat) (f : Fragment) :
    (c.parameters count first f).1.length = count ∧
      (c.parameters count first f).2.maxArgument = f.maxArgument := by
  induction count generalizing first f with
  | zero => exact ⟨rfl, rfl⟩
  | succ count ih =>
    obtain ⟨hlength, hmax⟩ := ih (first + 1) (c.nameArgument f first).2
    refine ⟨?_, hmax.trans (c.maxArgument_nameArgument f first)⟩
    rw [parameters, List.length_cons, hlength]

/-- The parameters are the names of the arguments, in order. -/
theorem parameters_spec (hnamed : c.dialect.namedArguments = true) (count first : Nat)
    (f : Fragment) :
    ∀ k < count, (c.parameters count first f).2.naming.byIndex[first + k]? =
      (c.parameters count first f).1[k]? := by
  induction count generalizing first f with
  | zero =>
    intro k hk
    omega
  | succ count ih =>
    obtain ⟨name, hname, hbyIndex⟩ := nameArgument_eq hnamed f first
    have hgrows := c.grows_parameters count (first + 1) (c.nameArgument f first).2 True
    intro k hk
    cases k with
    | zero => simpa [parameters, hname] using hgrows.kept hbyIndex
    | succ k =>
      have hrest := ih (first + 1) (c.nameArgument f first).2 k (by omega)
      have hindex : first + (k + 1) = first + 1 + k := by omega
      rw [hindex]
      simpa [parameters] using hrest

end Config

end GmlDecompiler

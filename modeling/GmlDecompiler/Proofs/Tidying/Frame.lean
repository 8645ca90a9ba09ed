import GmlDecompiler.Proofs.Naming.Tidying

/-!
# Tidying stays in its scope

Inside a scope every tree can be tidied, whatever routines and struct literals it holds. The
scopes of those are entered and left again, so that the scopes around the tree come out as they
went in. The innermost of them may learn something: the names of arguments, and the highest
argument that is referred to.
-/

namespace GmlDecompiler

/-- Every argument that has a name keeps it, and every name that is taken stays taken. Other
arguments may have got names. -/
structure Naming.ExtendsTo (n n' : Naming) : Prop where
  byIndex : ∀ (i : Nat) (name : String), n.byIndex[i]? = some name → n'.byIndex[i]? = some name
  taken : ∀ name ∈ n.taken, name ∈ n'.taken

/-- All that tidying a part of a tree may do to the scope around it: the highest argument rises,
arguments get names, and everything else stays. -/
structure Fragment.ExtendsTo (f f' : Fragment) : Prop where
  frame : f' = { f with naming := f'.naming, maxArgument := f'.maxArgument }
  maxArgument : f.maxArgument ≤ f'.maxArgument
  naming : f.naming.ExtendsTo f'.naming

/-- A scope that grows extends to what it becomes. -/
theorem Fragment.Grows.extendsTo {named : Prop} {f f' : Fragment} (hgrows : f.Grows named f') :
    f.ExtendsTo f' where
  frame := hgrows.frame
  maxArgument := hgrows.max_le
  naming := ⟨fun _ _ hname => hgrows.kept hname, fun _ hname => hgrows.taken hname⟩

/-- Inside a scope every expression and every statement can be tidied. There are as many scopes
afterwards as before, the outer ones are as they were, and the innermost one extends to what it
becomes. -/
theorem tidy_total_framed (c : Config) (f : Fragment) (outer : Scopes) :
    (∀ e : Expr, ∃ e' f', e.tidy c (f :: outer) = .ok (e', f' :: outer) ∧ f.ExtendsTo f') ∧
      ∀ s : Stmt, ∃ s' f', s.tidy c (f :: outer) = .ok (s', f' :: outer) ∧ f.ExtendsTo f' := by
  constructor
  · intro e
    obtain ⟨e', f', hrun, hpasses⟩ := e.tidy_passes c outer f
    exact ⟨e', f', hrun, hpasses.grows.extendsTo⟩
  · intro s
    obtain ⟨s', f', hrun, hpasses⟩ := s.tidy_passes c outer f
    exact ⟨s', f', hrun, hpasses.grows.extendsTo⟩

end GmlDecompiler

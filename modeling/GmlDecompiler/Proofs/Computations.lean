import GmlDecompiler.Fault

/-!
# Computations that may fail

What is shown of a computation part by part, as it is put together: that it keeps a property of its
state as long as it succeeds, that it fails only for reasons of some kind, and that another
computation gives a view of what it gives.
-/

namespace GmlDecompiler

/-- Two computations in a row succeed only if both do. -/
theorem exists_of_bind_eq_ok {α β : Type} {x : Except Fault α} {k : α → Except Fault β} {b : β}
    (hrun : x >>= k = .ok b) : ∃ a, x = .ok a ∧ k a = .ok b := by
  cases x with
  | error fault => cases hrun
  | ok a => exact ⟨a, rfl, hrun⟩

/-- A computation keeps a property of its state, and what it gives has a property, unless it
fails. -/
def Keeps {σ α : Type} (I : σ → Prop) (x : StateT σ (Except Fault) α) (Q : α → Prop) : Prop :=
  ∀ s, I s → ∀ a s', x s = .ok (a, s') → I s' ∧ Q a

namespace Keeps

variable {σ α β : Type} {I : σ → Prop} {x : StateT σ (Except Fault) α}
  {P Q : α → Prop} {R : β → Prop}

/-- Two computations in a row keep what both keep. The second one may rely on what the first one
gave. -/
theorem bind {k : α → StateT σ (Except Fault) β} (hx : Keeps I x P)
    (hk : ∀ a, P a → Keeps I (k a) R) : Keeps I (x >>= k) R := by
  intro s hs b s' hrun
  obtain ⟨⟨a, middle⟩, hfirst, hsecond⟩ := exists_of_bind_eq_ok hrun
  obtain ⟨hmiddle, ha⟩ := hx s hs a middle hfirst
  exact hk a ha middle hmiddle b s' hsecond

/-- A computation that only gives a value keeps everything. -/
theorem pure {a : α} (ha : Q a) : Keeps I (pure a) Q := by
  intro s hs b s' hrun
  cases hrun
  exact ⟨hs, ha⟩

/-- What a computation gives may be described more loosely. -/
theorem imp (hx : Keeps I x P) (hPQ : ∀ a, P a → Q a) : Keeps I x Q :=
  fun s hs a s' hrun => (hx s hs a s' hrun).imp_right (hPQ a)

/-- A computation that fails keeps everything, since nothing is asked of it. -/
theorem throw (fault : Fault) : Keeps I (throw fault) Q := by
  intro s hs a s' hrun
  cases hrun

/-- Reading the state keeps the property, and what it gives is a state that has it. -/
theorem get : Keeps I (get : StateT σ (Except Fault) σ) I := by
  intro s hs a s' hrun
  cases hrun
  exact ⟨hs, hs⟩

/-- Changing the state keeps a property that the change keeps. -/
theorem modify {change : σ → σ} (hchange : ∀ s, I s → I (change s)) :
    Keeps I (modify change : StateT σ (Except Fault) Unit) fun _ => True := by
  intro s hs a s' hrun
  cases hrun
  exact ⟨hchange s hs, trivial⟩

end Keeps

/-- If the result is a fault, it is one of some kind. -/
def Raises {α : Type} (P : Fault → Prop) (result : Except Fault α) : Prop :=
  ∀ fault, result = .error fault → P fault

namespace Raises

variable {α β : Type} {P : Fault → Prop} {x : Except Fault α}

/-- A result that is no fault raises nothing. -/
theorem ok (a : α) : Raises P (.ok a) := by
  intro fault herror
  cases herror

/-- A fault of the kind is a fault of the kind. -/
theorem error {fault : Fault} (hfault : P fault) : Raises P (.error fault : Except Fault α) := by
  intro other herror
  cases herror
  exact hfault

/-- Two computations in a row raise only what one of them raises. -/
theorem bind {k : α → Except Fault β} (hx : Raises P x) (hk : ∀ a, Raises P (k a)) :
    Raises P (x >>= k) := by
  intro fault herror
  cases x with
  | error other =>
    have hother : other = fault := Except.error.inj herror
    exact hx fault (congrArg Except.error hother)
  | ok a => exact hk a fault herror

end Raises

/-- The result has a property, or it is a fault of some kind. -/
inductive Ends {ρ : Type} (Q : ρ → Prop) (P : Fault → Prop) : Except Fault ρ → Prop
  | ok {r : ρ} : Q r → Ends Q P (.ok r)
  | error {fault : Fault} : P fault → Ends Q P (.error fault)

namespace Ends

variable {ρ ρ' : Type} {Q : ρ → Prop} {Q' : ρ' → Prop} {P P' : Fault → Prop} {x : Except Fault ρ}

/-- Two computations in a row end well if the second one does after everything that the first one
may give. -/
theorem bind {k : ρ → Except Fault ρ'} (hx : Ends Q P x) (hk : ∀ r, Q r → Ends Q' P (k r)) :
    Ends Q' P (x >>= k) := by
  cases hx with
  | ok hr => exact hk _ hr
  | error hfault => exact .error hfault

/-- The kind of the faults may be described more loosely. -/
theorem mono (hx : Ends Q P x) (hP : ∀ fault, P fault → P' fault) : Ends Q P' x := by
  cases hx with
  | ok hr => exact .ok hr
  | error hfault => exact .error (hP _ hfault)

/-- A computation whose end is known raises only faults of the kind. This forgets what it gives. -/
theorem raises (hx : Ends Q P x) : Raises P x := by
  cases hx with
  | ok hr => exact .ok _
  | error hfault => exact .error hfault

/-- If all faults of a computation are of the kind, it ends well, with nothing said of what it
gives. -/
theorem of_raises (hx : Raises P x) : Ends (fun _ => True) P x := by
  cases x with
  | ok r => exact .ok trivial
  | error fault => exact .error (hx fault rfl)

end Ends

/-- Started in a state that has a property, the computation fails only with faults of some kind,
and keeps the property if it does not fail. -/
def FailsWith {σ α : Type} (I : σ → Prop) (P : Fault → Prop) (x : StateT σ (Except Fault) α) :
    Prop :=
  ∀ s, I s → Ends (fun result => I result.2) P (x s)

namespace FailsWith

variable {σ α β : Type} {I : σ → Prop} {P : Fault → Prop} {x : StateT σ (Except Fault) α}

/-- A computation that only gives a value does not fail. -/
theorem pure (a : α) : FailsWith I P (pure a : StateT σ (Except Fault) α) :=
  fun _ hs => .ok hs

/-- Failing with a fault of the kind. -/
theorem throw {fault : Fault} (hfault : P fault) :
    FailsWith I P (throw fault : StateT σ (Except Fault) α) :=
  fun _ _ => .error hfault

/-- Changing the state does not fail, and keeps a property that the change keeps. -/
theorem modify {change : σ → σ} (hchange : ∀ s, I s → I (change s)) :
    FailsWith I P (modify change : StateT σ (Except Fault) Unit) :=
  fun s hs => .ok (hchange s hs)

/-- Two computations in a row: the second one starts in a state that the first one has kept the
property of. -/
theorem bind {k : α → StateT σ (Except Fault) β} (hx : FailsWith I P x)
    (hk : ∀ a, FailsWith I P (k a)) : FailsWith I P (x >>= k) :=
  fun s hs => (hx s hs).bind fun (a, middle) hmiddle => hk a middle hmiddle

end FailsWith

/-- Of two results the second is a view of the first, or the two are the same fault. -/
def Mirrors {α β : Type} (view : α → β) (x : Except Fault α) (y : Except Fault β) : Prop :=
  y = x.map view

namespace Mirrors

variable {α β α' β' : Type} {view : α → β} {view' : α' → β'} {x : Except Fault α}
  {y : Except Fault β}

/-- Two values, the second one the view of the first one. -/
theorem ok {a : α} {b : β} (hb : b = view a) : Mirrors view (.ok a) (.ok b) :=
  congrArg Except.ok hb

/-- The same fault twice. -/
theorem error (fault : Fault) : Mirrors view (.error fault) (.error fault) :=
  rfl

/-- A result is its own view. -/
theorem refl (x : Except Fault α) : Mirrors id x x := by
  cases x <;> rfl

/-- Faults may be labelled in both results. -/
theorem mapError (hxy : Mirrors view x y) (label : Fault → Fault) :
    Mirrors view (x.mapError label) (y.mapError label) := by
  unfold Mirrors at hxy
  subst hxy
  cases x <;> rfl

/-- Two results with the same view have views that are the same, or are the same fault. -/
theorem eq_or_eq {x' : Except Fault α} (hx : Mirrors view x y) (hx' : Mirrors view x' y) :
    (∃ fault, x = .error fault ∧ x' = .error fault) ∨
      ∃ a a', x = .ok a ∧ x' = .ok a' ∧ view a = view a' := by
  have hsame : x.map view = x'.map view := hx.symm.trans hx'
  cases x with
  | error fault =>
    cases x' with
    | error fault' =>
      cases hsame
      exact .inl ⟨fault, rfl, rfl⟩
    | ok a' => cases hsame
  | ok a =>
    cases x' with
    | error fault' => cases hsame
    | ok a' => exact .inr ⟨a, a', rfl, rfl, Except.ok.inj hsame⟩

/-- Two computations in a row have results with the same view if each of them has: the second one is
continued with the view of what the first one was continued with. -/
theorem bind {k : α → Except Fault α'} {l : β → Except Fault β'} (hx : Mirrors view x y)
    (hk : ∀ a, Mirrors view' (k a) (l (view a))) : Mirrors view' (x >>= k) (y >>= l) := by
  unfold Mirrors at hx
  subst hx
  cases x with
  | error fault => rfl
  | ok a => exact hk a

end Mirrors

end GmlDecompiler

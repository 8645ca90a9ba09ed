import GmlDecompiler.Proofs.Codegen.Source

/-!
# What instructions are made of

Every instruction is put together from a few basic actions on the fragment. A relation between
actions in which each basic action stands to itself, and that is kept when actions are run one
after another, is a relation between what an instruction does at one address and what it does at
another. A property of actions is the special case that looks at one address only. Three
instructions are singled out, since they are the ones that such relations differ by: the one that
accesses a local variable, the one that fetches a routine that is pending, and the one that drops an
expression.
-/

namespace GmlDecompiler

/-- The instruction pushes the function of a name, or the routine that is pending under it. -/
def Instruction.Fetches (i : Instruction) (name : String) : Prop :=
  i.opcode.isPush = true ∧ i.type1 = .int32 ∧ i.function = some name

instance (i : Instruction) (name : String) : Decidable (i.Fetches name) :=
  inferInstanceAs (Decidable (_ ∧ _ ∧ _))

/-- The name of the local variable that the instruction pushes or stores to; none if it does
neither, or to another variable. -/
def Instruction.localNames (i : Instruction) : List String :=
  if i.opcode.isPush = true ∧ i.type1 = .variable ∨ i.opcode = .pop then
    (i.target.map VarRef.localName).getD []
  else []

/-- A relation between actions in which every basic action stands to itself, at whatever addresses,
and that is kept when actions are run one after another. -/
structure Action.Congruence (R : (α : Type) → Action α → Action α → Prop) : Prop where
  pure : ∀ {α : Type} (a : α), R α (pure a) (pure a)
  bind : ∀ {α β : Type} {x y : Action α} {k l : α → Action β},
    R α x y → (∀ a, R β (k a) (l a)) → R β (x >>= k) (y >>= l)
  malformed : ∀ {α : Type} (first second : UInt32) (defect : Defect),
    R α (throw (.malformed first defect)) (throw (.malformed second defect))
  pop : ∀ first second, R Expr (Action.pop first) (Action.pop second)
  popMany : ∀ first second count,
    R (List Expr) (Action.popMany first count) (Action.popMany second count)
  push : ∀ e, R Unit (modify (·.push e)) (modify (·.push e))
  parentCall : ∀ e, R Unit (modify fun f => { f with parentCall := some e })
    (modify fun f => { f with parentCall := some e })
  duplicate : ∀ (i : Instruction) (address : UInt32),
    R Unit i.performDuplicate (i.atAddress address).performDuplicate

/-- A property of actions that the basic ones have, and that is kept when actions are run one after
another. -/
structure Action.Compositional (C : (α : Type) → Action α → Prop) : Prop where
  pure : ∀ {α : Type} (a : α), C α (pure a)
  bind : ∀ {α β : Type} {x : Action α} {k : α → Action β},
    C α x → (∀ a, C β (k a)) → C β (x >>= k)
  malformed : ∀ {α : Type} (address : UInt32) (defect : Defect),
    C α (throw (.malformed address defect))
  pop : ∀ address, C Expr (Action.pop address)
  popMany : ∀ address count, C (List Expr) (Action.popMany address count)
  push : ∀ e, C Unit (modify (·.push e))
  noteLocal : ∀ name, C Unit (modify (·.noteLocal name))
  parentCall : ∀ e, C Unit (modify fun f => { f with parentCall := some e })
  duplicate : ∀ i : Instruction, C Unit i.performDuplicate

/-- Related actions stay related when a test chooses between them. -/
theorem Action.ite_congr {R : (α : Type) → Action α → Action α → Prop} {α : Type} {p : Prop}
    [Decidable p] {x y x' y' : Action α} (hthen : R α x y) (helse : R α x' y') :
    R α (if p then x else x') (if p then y else y') := by
  split
  · exact hthen
  · exact helse

/-- A property of actions is a relation that does not look at the second one. -/
theorem Action.Compositional.congruence {C : (α : Type) → Action α → Prop}
    (hC : Action.Compositional C) : Action.Congruence fun α x _ => C α x where
  pure := hC.pure
  bind := hC.bind
  malformed first _ := hC.malformed first
  pop first _ := hC.pop first
  popMany first _ := hC.popMany first
  push := hC.push
  parentCall := hC.parentCall
  duplicate i _ := hC.duplicate i

namespace Instruction

section Congruence

variable {R : (α : Type) → Action α → Action α → Prop} (hR : Action.Congruence R) (d : Dialect)
  (i : Instruction) (address : UInt32)
include hR

/-- Finding the variable that an instruction accesses notes a local variable and does nothing
else. -/
theorem accessed_congr
    (hnote : ∀ name ∈ (i.target.map VarRef.localName).getD [],
      R Unit (modify (·.noteLocal name)) (modify (·.noteLocal name))) :
    R VarRef i.accessed (i.atAddress address).accessed := by
  unfold accessed
  dsimp only [atAddress]
  cases htarget : i.target with
  | none => exact hR.malformed _ _ _
  | some v =>
    dsimp only
    split
    · rename_i hlocal
      have hname : v.name ∈ (i.target.map VarRef.localName).getD [] := by
        simp [htarget, VarRef.localName, hlocal]
      exact hR.bind (hnote _ hname) fun _ => hR.pure _
    · exact hR.pure _

/-- Popping the owner of a variable, and the real one below it if that was a marker. -/
theorem popOwner_congr : R Expr i.popOwner (i.atAddress address).popOwner := by
  refine hR.bind (hR.pop _ _) fun owner => ?_
  split
  · exact hR.pop _ _
  · exact hR.pure _

/-- The owner of an element is below its index. -/
theorem popElement_congr {α : Type} (give : Expr → Expr → α) :
    R α
      (do
        let index ← Action.pop i.address
        let owner ← i.popOwner
        return give index owner)
      (do
        let index ← Action.pop address
        let owner ← (i.atAddress address).popOwner
        return give index owner) := by
  refine hR.bind (hR.pop _ _) fun index => ?_
  refine hR.bind (i.popOwner_congr hR address) fun owner => ?_
  exact hR.pure _

/-- Reading a variable pops its owner and its indices, and notes the name of a local one. -/
theorem readAccess_congr
    (hnote : ∀ name ∈ (i.target.map VarRef.localName).getD [],
      R Unit (modify (·.noteLocal name)) (modify (·.noteLocal name))) :
    R Access (i.readAccess d) ((i.atAddress address).readAccess d) := by
  refine hR.bind (i.accessed_congr hR address hnote) fun v => ?_
  refine Action.ite_congr (hR.bind (i.popOwner_congr hR address) fun _ => hR.pure _) ?_
  refine Action.ite_congr (i.popElement_congr hR address _) ?_
  exact Action.ite_congr (i.popElement_congr hR address _) (hR.pure _)

/-- Writing a variable pops its owner and its indices. The variable was found before. -/
theorem writeAccess_congr (v : VarRef) :
    R Access (i.writeAccess d v) ((i.atAddress address).writeAccess d v) := by
  refine Action.ite_congr (hR.bind (i.popOwner_congr hR address) fun _ => hR.pure _) ?_
  exact Action.ite_congr (i.popElement_congr hR address _) (hR.pure _)

/-- Finding what an instruction pushes: a literal, a variable that is read, or a function that is
fetched. -/
theorem pushed_congr (hpush : i.opcode.isPush = true)
    (hnote : ∀ name ∈ i.localNames,
      R Unit (modify (·.noteLocal name)) (modify (·.noteLocal name)))
    (hfetch : ∀ name, i.Fetches name → R Shape (takeFunction name) (takeFunction name)) :
    R Shape (i.pushed d) ((i.atAddress address).pushed d) := by
  unfold pushed
  dsimp only [atAddress]
  cases htype : i.type1 with
  | int32 =>
    dsimp only
    cases hfunction : i.function with
    | none => exact hR.pure _
    | some name => exact hfetch name ⟨hpush, htype, hfunction⟩
  | string | double | int64 | int16 | boolean => exact hR.pure _
  | «variable» =>
    rw [localNames, if_pos (.inl ⟨hpush, htype⟩)] at hnote
    exact hR.bind (i.readAccess_congr hR d address hnote) fun _ => hR.pure _

/-- Swapping two expressions, and dropping the ones below them. -/
theorem popSwap_congr : R Unit i.popSwap (i.atAddress address).popSwap := by
  refine hR.bind (hR.pop _ _) fun first => ?_
  refine hR.bind (hR.pop _ _) fun second => ?_
  refine hR.bind (hR.popMany _ _ _) fun _ => ?_
  -- two expressions are pushed in one change of the fragment
  exact hR.bind (hR.push second) fun _ => hR.push first

/-- Storing to a variable pops a value, in the order that the kind of the variable asks for, and
notes the name of a local one. -/
theorem store_congr (hpop : i.opcode = .pop)
    (hnote : ∀ name ∈ i.localNames,
      R Unit (modify (·.noteLocal name)) (modify (·.noteLocal name))) :
    R (List Stmt) (i.store d) ((i.atAddress address).store d) := by
  rw [localNames, if_pos (.inr hpop)] at hnote
  have hassignment :
      R (Access × Expr) (i.popAssignment d) ((i.atAddress address).popAssignment d) := by
    refine hR.bind (i.accessed_congr hR address hnote) fun v => ?_
    have haccess := i.writeAccess_congr hR d address v
    refine Action.ite_congr ?_ ?_
    · refine hR.bind (hR.pop _ _) fun value => ?_
      exact hR.bind haccess fun _ => hR.pure _
    · refine hR.bind haccess fun access => ?_
      exact hR.bind (hR.pop _ _) fun _ => hR.pure _
  refine hR.bind hassignment fun (access, value) => ?_
  exact Action.ite_congr (hR.pure _) (hR.pure _)

/-- Calling a function pops its arguments and pushes the call. -/
theorem performCall_congr : R Unit i.performCall (i.atAddress address).performCall := by
  unfold performCall
  dsimp only [atAddress]
  cases i.function with
  | none => exact hR.malformed _ _ _
  | some function =>
    dsimp only
    split
    · refine hR.bind (hR.pop _ _) fun callee => ?_
      exact hR.bind (hR.popMany _ _ _) fun _ => hR.push _
    · refine hR.bind (hR.popMany _ _ _) fun arguments => ?_
      split
      · exact hR.bind (hR.pop _ _) fun _ => hR.parentCall _
      · split
        · exact hR.push _
        · exact hR.push _

/-- The extended instructions drop the owner of an array, or push a reference, or do nothing. -/
theorem performExtended_congr : R Unit i.performExtended (i.atAddress address).performExtended := by
  unfold performExtended
  dsimp only [atAddress]
  split
  · exact hR.bind (hR.pop _ _) fun _ => hR.pure _
  · split
    · exact hR.push _
    · exact hR.push _
  · exact hR.pure _

/-- What an instruction does at one address is related to what it does at another, if noting a
local variable, fetching a routine and dropping an expression are where the instruction does
that. -/
theorem perform_congr
    (hnote : ∀ name ∈ i.localNames,
      R Unit (modify (·.noteLocal name)) (modify (·.noteLocal name)))
    (hfetch : ∀ name, i.Fetches name → R Shape (takeFunction name) (takeFunction name))
    (hdrop : i.opcode = .popDelete → R (List Stmt) discard discard) :
    R (List Stmt) (i.perform d) ((i.atAddress address).perform d) := by
  have hsilent {x y : Action Unit} (hxy : R Unit x y) :
      R (List Stmt) (x >>= fun _ => (pure [] : Action (List Stmt)))
        (y >>= fun _ => (pure [] : Action (List Stmt))) :=
    hR.bind hxy fun _ => hR.pure _
  have hopcode' : (i.atAddress address).opcode = i.opcode := rfl
  unfold perform
  rw [hopcode']
  cases hopcode : i.opcode with
  | multiply | divide | remainder | modulo | add | subtract | and | or | xor | shiftLeft
  | shiftRight | compare =>
    refine hsilent (hR.bind (hR.pop _ _) fun right => ?_)
    exact hR.bind (hR.pop _ _) fun _ => hR.push _
  | negate | not => exact hsilent (hR.bind (hR.pop _ _) fun _ => hR.push _)
  | convert => exact hsilent (hR.bind (hR.pop _ _) fun _ => hR.push _)
  | ret => exact hR.bind (hR.pop _ _) fun _ => hR.pure _
  | exit => exact hR.pure _
  | popDelete => exact hdrop hopcode
  | call => exact hsilent (i.performCall_congr hR address)
  | callValue =>
    refine hsilent (hR.bind (hR.pop _ _) fun callee => ?_)
    refine hR.bind (hR.pop _ _) fun self => ?_
    exact hR.bind (hR.popMany _ _ _) fun _ => hR.push _
  | push | pushLocal | pushGlobal | pushBuiltin =>
    have hpushed := i.pushed_congr hR d address (by rw [hopcode]; rfl) hnote hfetch
    exact hR.bind hpushed fun _ => hsilent (hR.push _)
  | pushImmediate => exact hsilent (hR.push _)
  | pop =>
    exact Action.ite_congr (hsilent (i.popSwap_congr hR address))
      (i.store_congr hR d address hopcode hnote)
  | duplicate => exact hsilent (hR.duplicate i address)
  | extended => exact hsilent (i.performExtended_congr hR address)
  | branch | branchTrue | branchFalse | pushContext | popContext => exact hR.pure _

end Congruence

/-- A compositional property is a property of every instruction, if fetching a routine and dropping
an expression have it where the instruction does that. -/
theorem perform_of {C : (α : Type) → Action α → Prop} (hC : Action.Compositional C) (d : Dialect)
    (i : Instruction) (hfetch : ∀ name, i.Fetches name → C Shape (takeFunction name))
    (hdrop : i.opcode = .popDelete → C (List Stmt) discard) : C (List Stmt) (i.perform d) :=
  i.perform_congr hC.congruence d i.address (fun name _ => hC.noteLocal name) hfetch hdrop

end Instruction

end GmlDecompiler

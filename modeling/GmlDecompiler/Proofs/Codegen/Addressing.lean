import GmlDecompiler.Program
import GmlDecompiler.Proofs.Codegen.Replay
import GmlDecompiler.Proofs.Computations

/-!
# Where pushes and stores find a variable

A push of a variable succeeds only on the slots that `ReadOperands` tells, and a store to a variable
takes those that `WriteOperands` tells. The two agree but for an instruction whose instance is the
top of the stack and whose way of reference is another one: there the push takes an owner off the
stack and the store does not. So a store finds the variable that the push of the same variable
finds, exactly if the instruction is not of that kind.
-/

namespace GmlDecompiler

namespace Fragment

/-- Slots put on the stack one part after another. -/
theorem pushAll_append (f : Fragment) (first second : List Expr) :
    f.pushAll (first ++ second) = (f.pushAll second).pushAll first := by
  simp only [pushAll, List.append_assoc]

/-- Slots on the stack were there before local variables were noted. -/
theorem eq_pushAll_of_noteLocals {f g : Fragment} {names : List String} {slots : List Expr}
    (hslots : f.noteLocals names = g.pushAll slots) :
    ∃ below : Fragment, f = below.pushAll slots ∧ g = below.noteLocals names := by
  refine ⟨{ f with stack := g.stack }, ?_, ?_⟩
  · have hstack : f.stack = slots ++ g.stack := by
      have hnoted : (f.noteLocals names).stack = f.stack := by rw [noteLocals_eq]
      rw [← hnoted, hslots]
      rfl
    obtain ⟨⟩ := f
    simp_all only [pushAll]
  · have hg : g = { g.pushAll slots with stack := g.stack } := by
      cases g
      rfl
    rw [hg, ← hslots]
    simp only [noteLocals_eq]

end Fragment

/-- A pop takes the top of the stack. -/
theorem Action.pop_eq_ok {address : UInt32} {f g : Fragment} {e : Expr} :
    pop address f = .ok (e, g) ↔ f = g.push e := by
  constructor
  · intro hrun
    cases hstack : f.stack with
    | nil =>
      simp only [pop, Fragment.tryPop, hstack, reduceCtorEq] at hrun
    | cons top below =>
      obtain ⟨⟩ := f
      obtain rfl : _ = top :: below := hstack
      cases hrun
      rfl
  · rintro rfl
    exact pop_push address g e

/-- An instruction that is no return adds the statements that it gives to the output. -/
theorem Machine.step_eq {d : Dialect} {i : Instruction} (hreturn : i.isReturn = false)
    (m : Machine) :
    m.step d i = (i.perform d m.fragment).map fun (ss, f) => ⟨f, m.output ++ ss⟩ := by
  unfold Machine.step
  cases i.perform d m.fragment with
  | error fault => rfl
  | ok result => simp [hreturn, bind, Except.bind, Except.map]

namespace Instruction

variable {d : Dialect} {i : Instruction} {f g : Fragment} {slots : List Expr} {owner : Expr}
  {indices : Option (List Expr)}

/-- An owner is taken off the stack exactly if the slots on top hold it. -/
theorem popOwner_eq_ok :
    i.popOwner f = .ok (owner, g) ↔ ∃ slots, HoldsOwner slots owner ∧ f = g.pushAll slots := by
  constructor
  · intro hrun
    obtain ⟨⟨top, middle⟩, htop, hchosen⟩ := exists_of_bind_eq_ok hrun
    have howner : (if top.isStackTopMarker then Action.pop i.address else pure top) middle =
      .ok (owner, g) := hchosen
    obtain rfl := Action.pop_eq_ok.mp htop
    by_cases hmarker : top.isStackTopMarker = true
    · rw [if_pos hmarker] at howner
      obtain rfl := Action.pop_eq_ok.mp howner
      exact ⟨[top, owner], .marked hmarker, rfl⟩
    · rw [if_neg hmarker] at howner
      cases howner
      exact ⟨[owner], .bare (Bool.not_eq_true _ ▸ hmarker), rfl⟩
  · rintro ⟨slots, hslots, rfl⟩
    exact popOwner_of_holdsOwner hslots g

/-- The owner of an element is below its index. -/
theorem popElement_eq_ok {give : Expr → Expr → Access} {a : Access}
    (hrun : (do
      let index ← Action.pop i.address
      let owner ← i.popOwner
      return give index owner : Action Access) f = .ok (a, g)) :
    ∃ index slots owner, HoldsOwner slots owner ∧ f = g.pushAll (index :: slots) ∧
      a = give index owner := by
  obtain ⟨⟨index, middle⟩, hindex, hrun⟩ := exists_of_bind_eq_ok hrun
  obtain ⟨⟨owner, after⟩, howner, hrun⟩ := exists_of_bind_eq_ok hrun
  cases hrun
  obtain rfl := Action.pop_eq_ok.mp hindex
  obtain ⟨slots, hslots, rfl⟩ := popOwner_eq_ok.mp howner
  exact ⟨index, slots, owner, hslots, rfl, rfl⟩

/-- A push of a variable succeeds only if the slots on top of the stack are what it takes. -/
theorem exists_readOperands {a : Access} (hrun : i.readAccess d f = .ok (a, g)) :
    ∃ (v : VarRef) (slots : List Expr) (owner : Expr) (indices : Option (List Expr))
      (below : Fragment), i.target = some v ∧ i.ReadOperands d slots owner indices ∧
      f = below.pushAll slots ∧ g = below.noteLocals v.localName ∧
      a = ⟨v, i.reference, owner, indices, i.opcode == .push, none⟩ := by
  obtain ⟨⟨v, middle⟩, haccessed, hrun⟩ := exists_of_bind_eq_ok hrun
  obtain ⟨htarget, rfl⟩ : i.target = some v ∧ middle = f.noteLocals v.localName := by
    cases htarget : i.target with
    | none =>
      rw [accessed, htarget] at haccessed
      cases haccessed
    | some other =>
      rw [accessed_eq htarget] at haccessed
      cases haccessed
      exact ⟨rfl, rfl⟩
  dsimp only at hrun
  split at hrun
  · rename_i hcomputed
    obtain ⟨⟨owner, after⟩, howner, hrun⟩ := exists_of_bind_eq_ok hrun
    cases hrun
    obtain ⟨slots, hslots, hstack⟩ := popOwner_eq_ok.mp howner
    obtain ⟨below, rfl, rfl⟩ := Fragment.eq_pushAll_of_noteLocals hstack
    exact ⟨v, slots, owner, none, below, htarget, .member hcomputed hslots, rfl, rfl, rfl⟩
  · rename_i hcomputed
    obtain ⟨howner, hmember⟩ := not_or.mp hcomputed
    split at hrun
    · rename_i hreference
      obtain ⟨index, slots, owner, hslots, hstack, rfl⟩ := popElement_eq_ok hrun
      obtain ⟨below, rfl, rfl⟩ := Fragment.eq_pushAll_of_noteLocals hstack
      exact ⟨v, index :: slots, owner, some (d.indices index), below, htarget,
        .element howner hreference hslots, rfl, rfl, rfl⟩
    · rename_i helement
      split at hrun
      · rename_i hreference
        obtain ⟨index, slots, owner, hslots, hstack, rfl⟩ := popElement_eq_ok hrun
        obtain ⟨below, rfl, rfl⟩ := Fragment.eq_pushAll_of_noteLocals hstack
        exact ⟨v, index :: slots, owner, some [index], below, htarget,
          .nested howner hreference hslots, rfl, rfl, rfl⟩
      · rename_i hnested
        cases hrun
        have hreference : i.reference = .normal ∨ i.reference = .ofInstance := by
          cases hkind : i.reference <;> simp_all
        exact ⟨v, [], i.ownOwner, none, f, htarget, .named howner hreference,
          (Fragment.pushAll_nil f).symm, rfl, rfl⟩

/-- What a store with a value gives: an assignment, unless the value is a copy of the constructor of
a struct literal. -/
def assignment (i : Instruction) (a : Access) (value : Expr) : List Stmt :=
  if value.duplicated && value.isStructConstructor then []
  else [.assign (.ofShape (.access a)) (stored i.type2 value)]

/-- The value of a store stays a copy of the constructor of a struct literal if it is one. -/
theorem isStructConstructor_stored (type : SlotType) (value : Expr) :
    ((stored type value).duplicated && (stored type value).isStructConstructor) =
      (value.duplicated && value.isStructConstructor) := by
  unfold stored
  split
  · rename_i bit hbit
    have hconstructor : value.isStructConstructor = false := by
      unfold Expr.isStructConstructor
      split
      · rename_i r hshape
        simp [Expr.bit?, hshape] at hbit
      · rfl
    simp [hconstructor, Expr.ofShape]
  · rfl

/-- A pop of a variable is a store to it. -/
theorem perform_eq_store {v : VarRef} (hopcode : i.opcode = .pop) (htarget : i.target = some v) :
    i.perform d = i.store d := by
  simp only [perform, hopcode, htarget, Option.isNone_some, Bool.false_eq_true, if_false]

/-- A store that finds its value beneath the slots that it takes assigns the value. -/
theorem perform_pop {v : VarRef} (hopcode : i.opcode = .pop) (htype : i.type1 ≠ .int32)
    (htarget : i.target = some v) (hoperands : i.WriteOperands d slots owner indices)
    (value : Expr) (f : Fragment) :
    i.perform d ((f.push value).pushAll slots) =
      .ok (i.assignment ⟨v, i.reference, owner, indices, false, none⟩ value,
        f.noteLocals v.localName) := by
  have hwrite := writeAccess_pushAll hoperands v ((f.noteLocals v.localName).push value)
  have hassignment : i.popAssignment d ((f.push value).pushAll slots) =
      .ok ((⟨v, i.reference, owner, indices, false, none⟩, value), f.noteLocals v.localName) := by
    simp only [popAssignment, accessed_eq htarget, if_neg htype, Fragment.noteLocals_pushAll,
      Fragment.noteLocals_push, hwrite, Action.pop_push, bind, StateT.bind, Except.bind, pure_apply]
  rw [perform_eq_store hopcode htarget]
  simp only [store, hassignment, isStructConstructor_stored, assignment, bind, StateT.bind,
    Except.bind]
  split <;> rfl

/-- A push of a variable and a store that name the same variable, the same instance and the same way
of reference, one that both of them know. The store finds its value below what it takes. -/
structure SameAddress (read write : Instruction) : Prop where
  isPush : read.opcode.isPush = true
  pushed : read.type1 = .variable
  isPop : write.opcode = .pop
  beneath : write.type1 ≠ .int32
  target : write.target = read.target ∧ read.target.isSome = true
  owner : write.owner = read.owner
  reference : write.reference = read.reference
  known : read.reference ∈ [Reference.normal, .ofInstance, .stackTop, .array]

/-- Wherever the push succeeds, the store does, once a value is put right below the slots that the
push takes: it takes these slots and the value, and assigns the value to the variable that the push
reads. -/
def StoresWhereRead (d : Dialect) (read write : Instruction) : Prop :=
  ∀ (m m' : Machine) (slots rest : List Expr) (a : Access) (value : Expr),
    m.fragment.stack = slots ++ rest → Machine.step d m read = .ok m' →
    m'.fragment.stack = .ofShape (.access a) :: rest →
    Machine.step d ⟨{ m.fragment with stack := slots ++ value :: rest }, m.output⟩ write =
      .ok ⟨{ m'.fragment with stack := rest },
        m.output ++ write.assignment { a with regularPush := false } value⟩

namespace SameAddress

variable {read write : Instruction}

/-- The store takes what the push takes, unless only the push looks for the owner on the stack. -/
theorem writeOperands (haddress : SameAddress read write)
    (howner : read.owner = .stackTop → read.reference = .stackTop)
    (hoperands : read.ReadOperands d slots owner indices) :
    write.WriteOperands d slots owner indices := by
  have hsame : read.ownOwner = write.ownOwner := by rw [ownOwner, ownOwner, haddress.owner]
  have hreference := haddress.reference
  cases hoperands with
  | named _ hnamed =>
    rw [hsame]
    rcases hnamed with hnamed | hnamed <;>
      exact .named (by simp [hreference, hnamed]) (by simp [hreference, hnamed])
  | member hcomputed hslots =>
    have hmember : read.reference = .stackTop := hcomputed.elim howner id
    exact .member (hreference.trans hmember) hslots
  | element _ helement hslots => exact .element (hreference.trans helement) hslots
  | nested _ hnested _ =>
    have hknown := haddress.known
    rcases hnested with hnested | hnested <;> simp [hnested] at hknown

end SameAddress

/-- What a push of a variable does to a machine, if it succeeds. -/
theorem step_push_eq_ok {m m' : Machine} (hpush : i.opcode.isPush = true)
    (htype : i.type1 = .variable) (hstep : m.step d i = .ok m') :
    ∃ a g, i.readAccess d m.fragment = .ok (a, g) ∧
      m' = ⟨g.push (.ofShape (.access a)), m.output⟩ := by
  rw [Machine.step_eq (isReturn_eq_false (.inr (.inr hpush))), perform_eq_of_isPush hpush] at hstep
  have hpushed : i.pushed d = i.readAccess d >>= fun a => pure (.access a) := by
    simp only [pushed, htype]
  simp only [hpushed, bind, StateT.bind, Except.bind] at hstep
  cases haccess : i.readAccess d m.fragment with
  | error fault =>
    rw [haccess] at hstep
    cases hstep
  | ok result =>
    rw [haccess] at hstep
    cases hstep
    exact ⟨result.1, result.2, rfl, by simp⟩

/-- The store finds the variable where the push finds it, if not only the push looks for the owner
on the stack. -/
theorem SameAddress.storesWhereRead {read write : Instruction} (haddress : SameAddress read write)
    (howner : read.owner = .stackTop → read.reference = .stackTop) :
    StoresWhereRead d read write := by
  intro m m' slots rest a value hstack hread htop
  obtain ⟨a', g, haccess, rfl⟩ := step_push_eq_ok haddress.isPush haddress.pushed hread
  obtain ⟨v, taken, owner, indices, below, htarget, hoperands, hfragment, rfl, rfl⟩ :=
    exists_readOperands haccess
  obtain ⟨ha, hrest⟩ := List.cons.inj htop
  have hbelow : below.stack = rest := by
    have hnoted : (below.noteLocals v.localName).stack = below.stack := by
      rw [Fragment.noteLocals_eq]
    exact hnoted.symm.trans hrest
  obtain rfl : taken = slots := by
    rw [hfragment, ← hbelow] at hstack
    exact List.append_cancel_right hstack
  have hstart : { m.fragment with stack := taken ++ value :: rest } =
      (below.push value).pushAll taken := by
    rw [hfragment, ← hbelow]
    rfl
  have hperform := perform_pop haddress.isPop haddress.beneath (haddress.target.1.trans htarget)
    (haddress.writeOperands howner hoperands) value below
  have hreturn : write.isReturn = false := by simp [isReturn, haddress.isPop]
  have hend : { (below.noteLocals v.localName).push (.ofShape (.access a)) with stack := rest } =
      below.noteLocals v.localName := by
    rw [← hrest]
    cases below.noteLocals v.localName
    rfl
  obtain rfl : _ = a := Shape.access.inj (congrArg Expr.shape ha)
  rw [Machine.step_eq hreturn, hstart, hperform, haddress.reference, ha, hend]
  rfl

/-- A store that takes all slots there are finds no value below them. -/
theorem perform_pop_of_stack_eq_nil {v : VarRef} (hopcode : i.opcode = .pop)
    (htype : i.type1 ≠ .int32) (htarget : i.target = some v)
    (hoperands : i.WriteOperands d slots owner indices) (hempty : f.stack = []) :
    i.perform d (f.pushAll slots) = .error (.stackUnderflow i.address) := by
  have hwrite := writeAccess_pushAll hoperands v (f.noteLocals v.localName)
  have hpop : Action.pop i.address (f.noteLocals v.localName) =
      .error (.stackUnderflow i.address) := by
    have hnone : (f.noteLocals v.localName).tryPop = none := by
      rw [Fragment.tryPop_eq_none_iff, Fragment.noteLocals_eq]
      exact hempty
    rw [Action.pop, hnone]
  rw [perform_eq_store hopcode htarget]
  simp only [store, popAssignment, accessed_eq htarget, if_neg htype, Fragment.noteLocals_pushAll,
    hwrite, hpop, bind, StateT.bind, Except.bind]

/-- If only the push looks for the owner on the stack, the store leaves the owner there, or takes it
for the index. -/
theorem SameAddress.not_storesWhereRead {read write : Instruction}
    (haddress : SameAddress read write) (howner : read.owner = .stackTop)
    (hreference : read.reference ≠ .stackTop) : ¬ StoresWhereRead d read write := by
  intro hstores
  obtain ⟨v, htarget⟩ := Option.isSome_iff_exists.mp haddress.target.2
  have htarget' : write.target = some v := haddress.target.1.trans htarget
  have hreturn : write.isReturn = false := by simp [isReturn, haddress.isPop]
  -- an owner that is no marker, alone on the stack, and the same expression as the value below it
  let owner : Expr := .ofShape (.boolean true)
  let empty : Fragment := {}
  let a : Access := ⟨v, read.reference, owner, none, read.opcode == .push, none⟩
  have hread : Machine.step d ⟨empty.pushAll [owner], []⟩ read =
      .ok ⟨(empty.noteLocals v.localName).push (.ofShape (.access a)), []⟩ := by
    have hslots : HoldsOwner [owner] owner := .bare rfl
    have haccess := readAccess_pushAll (d := d) htarget (.member (.inl howner) hslots) empty
    rw [Machine.step_eq (isReturn_eq_false (.inr (.inr haddress.isPush))),
      perform_push haddress.isPush (pushed_access haddress.pushed haccess)]
    rfl
  have htop : ((empty.noteLocals v.localName).push (.ofShape (.access a))).stack =
      [.ofShape (.access a)] := by
    rw [Fragment.noteLocals_eq]
    rfl
  have hwrite := hstores _ _ [owner] [] a owner rfl hread htop
  have hstart : { empty.pushAll [owner] with stack := [owner] ++ [owner] } =
      empty.pushAll [owner, owner] := rfl
  rw [Machine.step_eq hreturn, hstart] at hwrite
  by_cases helement : read.reference = .array
  · have hoperands : write.WriteOperands d [owner, owner] owner (some (d.indices owner)) :=
      .element (haddress.reference.trans helement) (.bare rfl)
    rw [perform_pop_of_stack_eq_nil haddress.isPop haddress.beneath htarget' hoperands rfl]
      at hwrite
    cases hwrite
  · have hoperands : write.WriteOperands d [] write.ownOwner none :=
      .named (haddress.reference ▸ hreference) (haddress.reference ▸ helement)
    have hperform := perform_pop haddress.isPop haddress.beneath htarget' hoperands owner
      (empty.push owner)
    rw [Fragment.pushAll_nil] at hperform
    have hsame : empty.pushAll [owner, owner] = (empty.push owner).push owner := rfl
    rw [hsame, hperform] at hwrite
    have hstack := congrArg (fun m : Machine => m.fragment.stack) (Except.ok.inj hwrite)
    rw [Fragment.noteLocals_eq] at hstack
    cases hstack

/-- The store finds the variable where the push finds it, exactly if not only the push looks for the
owner on the stack: that is, if the instance is not the top of the stack, or the way of reference
says so too. -/
theorem stores_where_read_iff (d : Dialect) {read write : Instruction}
    (haddress : SameAddress read write) :
    StoresWhereRead d read write ↔ (read.owner = .stackTop → read.reference = .stackTop) := by
  refine ⟨fun hstores howner => ?_, haddress.storesWhereRead⟩
  by_contra hreference
  exact haddress.not_storesWhereRead howner hreference hstores

end Instruction

namespace Sample

/-- A push of an element of the array `grid`. -/
def readElement : Instruction :=
  .pushVariable .push ⟨"grid", .own⟩ .array

/-- A store to an element of the array `grid`. -/
def writeElement : Instruction :=
  .popVariable ⟨"grid", .own⟩ .array .variable

/-- A push of the variable `x` of the instance on top of the stack. -/
def readMember : Instruction :=
  (Instruction.pushVariable .push ⟨"x", .own⟩ .normal).withOwner .stackTop

/-- A store to the variable `x` of the instance on top of the stack. -/
def writeMember : Instruction :=
  (Instruction.popVariable ⟨"x", .own⟩ .normal .variable).withOwner .stackTop

/-- Code that returns `a.x`. -/
def returnsMember : Entry where
  name := "gml_Object_player_Step_0"
  body := [.block ⟨0, [.pushVariable .push ⟨"a", .own⟩ .normal, readMember, .plain .ret]⟩]

/-- Code that stores `5` where the other reads. -/
def setsMember : Entry where
  name := "gml_Object_player_Step_0"
  body := [.block ⟨0, [.pushImmediate 5, .pushVariable .push ⟨"a", .own⟩ .normal, writeMember]⟩]

end Sample

/-- The two instructions name an element of the same array, and the instance is not on the stack. -/
theorem stores_where_read_iff_element :
    Sample.readElement.SameAddress Sample.writeElement ∧
      Instruction.StoresWhereRead Version.legacy.dialect Sample.readElement
        Sample.writeElement := by
  have haddress : Sample.readElement.SameAddress Sample.writeElement :=
    ⟨rfl, rfl, rfl, by decide, ⟨rfl, rfl⟩, rfl, rfl, by decide⟩
  refine ⟨haddress, (Instruction.stores_where_read_iff Version.legacy.dialect haddress).mpr ?_⟩
  intro howner
  cases howner

/-- A store to a variable of the instance on top of the stack leaves the instance there and stores
it instead of the value, although a push of the variable takes it for the owner. -/
theorem stacked_owner_stored :
    Sample.readMember.SameAddress Sample.writeMember ∧
      ¬ Instruction.StoresWhereRead Version.current.dialect Sample.readMember Sample.writeMember ∧
      decompile Sample.returnsMember = .ok "return a.x;\n" ∧
      decompile Sample.setsMember = .ok "x = a;\n" := by
  have haddress : Sample.readMember.SameAddress Sample.writeMember :=
    ⟨rfl, rfl, rfl, by decide, ⟨rfl, rfl⟩, rfl, rfl, by decide⟩
  exact ⟨haddress, haddress.not_storesWhereRead rfl (by decide), by decide +kernel,
    by decide +kernel⟩

end GmlDecompiler

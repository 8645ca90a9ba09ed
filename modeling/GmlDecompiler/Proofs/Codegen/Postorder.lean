import GmlDecompiler.Proofs.Codegen.Addressing

/-!
# Code in postorder

Code computes a tree in postorder: first the operands, then the instruction for the tree itself. The
instructions may stand at any address, and a field that an instruction does not use may hold
anything. Such code, run on any fragment whose pending routines it does not refer to, puts the tree
on the stack and does nothing else but note local variables.
-/

namespace GmlDecompiler

/-- The instruction pushes a variable, which it finds in some way. -/
structure Instruction.Reads (i : Instruction) (v : VarRef) (reference : Reference)
    (regularPush : Bool) : Prop where
  isPush : i.opcode.isPush = true
  type : i.type1 = .variable
  target : i.target = some v
  owner : i.owner ≠ .stackTop
  reference : i.reference = reference
  regular : (i.opcode == .push) = regularPush

mutual

/-- The code computes an expression of some shape, in postorder. -/
inductive Shape.HasCode : Shape → List Instruction → Prop
  | literal {value : Literal} {i : Instruction} (hloads : i.Loads value) :
      Shape.HasCode value.shape [i]
  | function {name : String} {i : Instruction} (hrefers : i.Refers name) :
      Shape.HasCode (.function name) [i]
  | named {v : VarRef} {regularPush : Bool} {i : Instruction}
      (hreads : i.Reads v .normal regularPush) :
      Shape.HasCode (.access ⟨v, .normal, i.ownOwner, none, regularPush, none⟩) [i]
  | member {v : VarRef} {owner : Expr} {regularPush : Bool} {ownerCode : List Instruction}
      {i : Instruction} (howner : owner.shape.HasCode ownerCode)
      (hreads : i.Reads v .stackTop regularPush) :
      Shape.HasCode (.access ⟨v, .stackTop, owner, none, regularPush, none⟩) (ownerCode ++ [i])
  | element {v : VarRef} {reference : Reference} {owner index : Expr} {regularPush : Bool}
      {ownerCode indexCode : List Instruction} {i : Instruction}
      (howner : owner.shape.HasCode ownerCode) (hindex : index.shape.HasCode indexCode)
      (hreads : i.Reads v reference regularPush) :
      Shape.HasCode (.access ⟨v, reference, owner, some [index], regularPush, none⟩)
        (ownerCode ++ indexCode ++ [i])
  | cell {v : VarRef} {owner row column : Expr} {regularPush : Bool}
      {ownerCode rowCode columnCode : List Instruction} {stride product sum i : Instruction}
      (howner : owner.shape.HasCode ownerCode) (hrow : row.shape.HasCode rowCode)
      (hstride : stride.Loads (.int32 Reserved.rowStride)) (hproduct : product.opcode = .multiply)
      (hcolumn : column.shape.HasCode columnCode) (hsum : sum.opcode = .add)
      (hreads : i.Reads v .array regularPush) :
      Shape.HasCode (.access ⟨v, .array, owner, some [row, column], regularPush, none⟩)
        (ownerCode ++ (rowCode ++ [stride] ++ [product] ++ columnCode ++ [sum]) ++ [i])
  | unary {operand : Expr} {code : List Instruction} {i : Instruction}
      (hoperand : operand.shape.HasCode code) :
      Shape.HasCode (.unary (i.atAddress 0) operand) (code ++ [i])
  | binary {left right : Expr} {leftCode rightCode : List Instruction} {i : Instruction}
      (hleft : left.shape.HasCode leftCode) (hright : right.shape.HasCode rightCode) :
      Shape.HasCode (.binary (i.atAddress 0) left right) (leftCode ++ rightCode ++ [i])
  | call {name : String} {arguments : List Expr} {code : List Instruction} {i : Instruction}
      (harguments : HaveCode arguments code) (hopcode : i.opcode = .call)
      (hfunction : i.function = some name) (hcount : i.argCount.toNat = arguments.length) :
      Shape.HasCode (.call name arguments) (code ++ [i])
  | callValue {callee self : Expr} {arguments : List Expr}
      {code selfCode calleeCode : List Instruction} {i : Instruction}
      (harguments : HaveCode arguments code) (hself : self.shape.HasCode selfCode)
      (hcallee : callee.shape.HasCode calleeCode) (hopcode : i.opcode = .callValue)
      (hcount : i.argCount.toNat = arguments.length) :
      Shape.HasCode (.callValue callee self arguments) (code ++ selfCode ++ calleeCode ++ [i])
  | construct {callee : Expr} {arguments : List Expr} {code calleeCode : List Instruction}
      {i : Instruction} (harguments : HaveCode arguments code)
      (hcallee : callee.shape.HasCode calleeCode) (hopcode : i.opcode = .call)
      (hfunction : i.function = some Reserved.newObject)
      (hcount : i.argCount.toNat = arguments.length + 1) :
      Shape.HasCode (.construct callee arguments) (code ++ calleeCode ++ [i])

/-- The code computes expressions one after another, the last one first. -/
inductive HaveCode : List Expr → List Instruction → Prop
  | nil : HaveCode [] []
  | cons {e : Expr} {es : List Expr} {code restCode : List Instruction}
      (hrest : HaveCode es restCode) (he : e.shape.HasCode code) :
      HaveCode (e :: es) (restCode ++ code)

end

/-- A way to find a variable: who owns it and which element of it is meant. An owner on the stack is
not mistaken for a marker, and one index is not mistaken for two. -/
inductive Dialect.Addresses (d : Dialect) : Reference → Expr → Option (List Expr) → Prop
  | named {owner : Instance} (howner : owner ≠ .stackTop) :
      d.Addresses .normal (.ofShape (.keyword owner)) none
  | member {owner : Expr} (howner : owner.isStackTopMarker = false) :
      d.Addresses .stackTop owner none
  | element {owner index : Expr} (howner : owner.isStackTopMarker = false)
      (hindex : d.unifiedArrays = true ∨ index.rowAndColumn? = none) :
      d.Addresses .array owner (some [index])
  | nested {reference : Reference} {owner index : Expr} (howner : owner.isStackTopMarker = false)
      (hreference : reference = .multiPush ∨ reference = .multiPushPop) :
      d.Addresses reference owner (some [index])
  | cell {owner row column : Expr} (howner : owner.isStackTopMarker = false)
      (hunified : d.unifiedArrays = false) : d.Addresses .array owner (some [row, column])

/-- A variable of an instance that the instruction names is no element. -/
theorem Dialect.Addresses.reference_ne_normal {d : Dialect} {reference : Reference} {owner : Expr}
    {indices : Option (List Expr)} (haddress : d.Addresses reference owner indices)
    (hindices : indices.isSome = true) : reference ≠ .normal := by
  cases haddress with
  | named => cases hindices
  | nested _ hreference => rcases hreference with rfl | rfl <;> decide
  | member | element | cell => decide

mutual

/-- The expression is one that code in postorder computes, as the machine makes it: it is no copy
and has no parentheses, and its slot has the type of its shape. The functions that it refers to are
free, that is, they are not routines still to be used. -/
def Expr.Rebuildable (d : Dialect) (free : String → Prop) : Expr → Prop
  | ⟨shape, duplicated, grouped, slot⟩ =>
    duplicated = false ∧ grouped = false ∧ slot = shape.slot ∧ shape.Rebuildable d free

/-- Expressions of the shape are computed by code in postorder. -/
def Shape.Rebuildable (d : Dialect) (free : String → Prop) : Shape → Prop
  | .int16 _ | .int32 _ | .int64 _ | .double _ | .string _ | .boolean _ => True
  | .function name => free name
  | .access target => target.Rebuildable d free
  | .unary operator operand =>
    operator.opcode.isUnary = true ∧ operator.address = 0 ∧ operand.Rebuildable d free
  | .binary operator left right =>
    operator.opcode.isBinary = true ∧ operator.address = 0 ∧ left.Rebuildable d free ∧
      right.Rebuildable d free
  | .call function arguments =>
    function ≠ Reserved.newObject ∧ function ≠ Reserved.copyStatic ∧
      arguments.length < UInt16.size ∧ RebuildableAll d free arguments
  | .callValue callee self arguments =>
    arguments.length < UInt16.size ∧ callee.Rebuildable d free ∧ self.Rebuildable d free ∧
      RebuildableAll d free arguments
  | .construct callee arguments =>
    arguments.length + 1 < UInt16.size ∧ callee.Rebuildable d free ∧
      RebuildableAll d free arguments
  | .keyword _ | .constant _ | .chain _ _ | .routine _ | .struct _ => False

/-- The access is computed by code in postorder. Only an owner that the instruction names needs no
code. -/
def Access.Rebuildable (d : Dialect) (free : String → Prop) : Access → Prop
  | ⟨_, reference, owner, indices, _, argumentName⟩ =>
    argumentName = none ∧ d.Addresses reference owner indices ∧
      (reference ≠ .normal → owner.Rebuildable d free) ∧ RebuildableIndices d free indices

/-- The indices, if there are any, are computed by code in postorder. -/
def RebuildableIndices (d : Dialect) (free : String → Prop) : Option (List Expr) → Prop
  | none => True
  | some indices => RebuildableAll d free indices

/-- The expressions are computed by code in postorder. -/
def RebuildableAll (d : Dialect) (free : String → Prop) : List Expr → Prop
  | [] => True
  | e :: es => e.Rebuildable d free ∧ RebuildableAll d free es

end

/-- A rebuildable expression is new as it stands. -/
theorem Expr.Rebuildable.eq_ofShape {d : Dialect} {free : String → Prop} {e : Expr}
    (he : e.Rebuildable d free) : e = .ofShape e.shape := by
  obtain ⟨shape, duplicated, grouped, slot⟩ := e
  obtain ⟨rfl, rfl, rfl, -⟩ := he
  rfl

/-- The shape of an expression that code in postorder computes. -/
theorem Expr.Rebuildable.shape {d : Dialect} {free : String → Prop} {e : Expr}
    (he : e.Rebuildable d free) : e.shape.Rebuildable d free := by
  obtain ⟨shape, duplicated, grouped, slot⟩ := e
  exact he.2.2.2

/-- A routine is not rebuilt by code in postorder. -/
theorem Expr.Rebuildable.shape_ne_routine {d : Dialect} {free : String → Prop} {e : Expr}
    (he : e.Rebuildable d free) (r : Routine) : e.shape ≠ .routine r := by
  intro hshape
  have hroutine := he.shape
  rw [hshape] at hroutine
  exact hroutine

/-- Each of the expressions is computed by code in postorder. -/
theorem RebuildableAll.of_mem {d : Dialect} {free : String → Prop} {es : List Expr}
    (hes : RebuildableAll d free es) {e : Expr} (he : e ∈ es) : e.Rebuildable d free := by
  induction es with
  | nil => cases he
  | cons first es ih =>
    rcases List.mem_cons.mp he with rfl | he
    · exact hes.1
    · exact ih hes.2 he

/-- A push of a variable takes its operands from the stack and puts the access there. -/
theorem Instruction.Reads.perform {d : Dialect} {i : Instruction} {v : VarRef}
    {reference : Reference} {regularPush : Bool} {slots : List Expr} {owner : Expr}
    {indices : Option (List Expr)} (hi : i.Reads v reference regularPush)
    (hoperands : i.ReadOperands d slots owner indices) (f : Fragment) :
    i.perform d (f.pushAll slots) =
      .ok ([], (f.noteLocals v.localName).push
        (.ofShape (.access ⟨v, reference, owner, indices, regularPush, none⟩))) := by
  have haccess := Instruction.readAccess_pushAll hi.target hoperands f
  rw [hi.reference, hi.regular] at haccess
  exact Instruction.perform_push hi.isPush (Instruction.pushed_access hi.type haccess)

/-- None of the functions is a routine of the fragment that is still to be used. -/
def Fragment.NonePending (free : String → Prop) (f : Fragment) : Prop :=
  ∀ name, free name → f.pending.lookup name = none

/-- The code puts expressions on the stack, the first of them on top. It gives no statement and
changes nothing else but the lists of local variables, whatever the fragment and the output are. -/
def Yields (d : Dialect) (free : String → Prop) (code : List Instruction) (es : List Expr) :
    Prop :=
  ∀ f : Fragment, f.NonePending free → ∃ names, ∀ output,
    code.foldlM (Machine.step d) ⟨f, output⟩ = .ok ⟨(f.noteLocals names).pushAll es, output⟩

namespace Yields

variable {d : Dialect} {free : String → Prop} {code rest : List Instruction} {es es' : List Expr}

/-- No code puts nothing on the stack. -/
theorem nil : Yields d free [] [] :=
  fun f _ => ⟨[], fun output => by simp⟩

/-- Code after code puts its expressions above the others. -/
theorem append (hcode : Yields d free code es) (hrest : Yields d free rest es') :
    Yields d free (code ++ rest) (es' ++ es) := by
  intro f hf
  obtain ⟨names, hfirst⟩ := hcode f hf
  have hmiddle : ((f.noteLocals names).pushAll es).NonePending free := by
    simpa [Fragment.NonePending] using hf
  obtain ⟨others, hsecond⟩ := hrest _ hmiddle
  refine ⟨names ++ others, fun output => ?_⟩
  rw [List.foldlM_append, hfirst output]
  refine (hsecond output).trans ?_
  rw [Fragment.noteLocals_pushAll, Fragment.noteLocals_append, Fragment.pushAll_append]

/-- An instruction that takes all expressions put on the stack replaces them by its own. -/
theorem op {i : Instruction} {e : Expr} (hcode : Yields d free code es)
    (hreturn : i.isReturn = false)
    (hperform : ∀ f : Fragment, f.NonePending free →
      ∃ names, i.perform d (f.pushAll es) = .ok ([], (f.noteLocals names).push e)) :
    Yields d free (code ++ [i]) [e] := by
  intro f hf
  obtain ⟨names, hfirst⟩ := hcode f hf
  have hmiddle : (f.noteLocals names).NonePending free := by
    simpa [Fragment.NonePending] using hf
  obtain ⟨others, hlast⟩ := hperform _ hmiddle
  refine ⟨names ++ others, fun output => ?_⟩
  have hstep : Machine.step d ⟨(f.noteLocals names).pushAll es, output⟩ i =
      .ok ⟨((f.noteLocals names).noteLocals others).push e, output⟩ := by
    rw [Machine.step_eq hreturn, hlast]
    simp [Except.map]
  rw [List.foldlM_append, hfirst output, Fragment.noteLocals_append]
  change [i].foldlM (Machine.step d) _ = _
  rw [List.foldlM_cons, hstep]
  rfl

end Yields

variable {d : Dialect} {free : String → Prop} {i : Instruction}

/-- The code of a literal puts the literal on the stack. -/
theorem Instruction.Loads.yields {value : Literal} (hi : i.Loads value) :
    Yields d free [i] [.ofShape value.shape] := by
  have hreturn : i.isReturn = false := by
    cases hi with
    | immediate hopcode => simp [isReturn, hopcode]
    | typed hopcode => exact isReturn_eq_false (.inr (.inr hopcode))
  exact Yields.nil.op hreturn fun f _ => ⟨[], by simpa using hi.perform f⟩

/-- The code of a free function puts the function on the stack. A routine still to be used would be
put there itself. -/
theorem Instruction.Refers.yields {name : String} (hi : i.Refers name) (hfree : free name) :
    Yields d free [i] [.ofShape (.function name)] :=
  Yields.nil.op (isReturn_eq_false (.inr (.inr hi.isPush))) fun f hf =>
    ⟨[], by simpa using hi.perform (hf name hfree)⟩

/-- The operands of an access and the push of its variable compute the access. -/
theorem Yields.read {code : List Instruction} {slots : List Expr} {v : VarRef}
    {reference : Reference} {regularPush : Bool} {owner : Expr} {indices : Option (List Expr)}
    (hcode : Yields d free code slots) (hi : i.Reads v reference regularPush)
    (hoperands : i.ReadOperands d slots owner indices) :
    Yields d free (code ++ [i])
      [.ofShape (.access ⟨v, reference, owner, indices, regularPush, none⟩)] :=
  hcode.op (Instruction.isReturn_eq_false (.inr (.inr hi.isPush))) fun f _ =>
    ⟨v.localName, hi.perform hoperands f⟩

/-- An operator after the code of its operand. -/
theorem Yields.unary {code : List Instruction} {operand : Expr}
    (hcode : Yields d free code [operand]) (hopcode : i.opcode.isUnary = true) :
    Yields d free (code ++ [i]) [.ofShape (.unary (i.atAddress 0) operand)] :=
  hcode.op (Instruction.isReturn_eq_false (.inl hopcode)) fun f _ =>
    ⟨[], Instruction.perform_unary (f := f) hopcode operand⟩

/-- An operator after the code of both operands, the left one first. -/
theorem Yields.binary {leftCode rightCode : List Instruction} {left right : Expr}
    (hleft : Yields d free leftCode [left]) (hright : Yields d free rightCode [right])
    (hopcode : i.opcode.isBinary = true) :
    Yields d free (leftCode ++ rightCode ++ [i])
      [.ofShape (.binary (i.atAddress 0) left right)] :=
  (hleft.append hright).op (Instruction.isReturn_eq_false (.inr (.inl hopcode))) fun f _ =>
    ⟨[], Instruction.perform_binary (f := f) hopcode left right⟩

/-- The slots that hold a single element are its index and, below it, its owner. -/
theorem Instruction.Reads.elementOperands {v : VarRef} {reference : Reference} {regularPush : Bool}
    {owner index : Expr} (hi : i.Reads v reference regularPush)
    (haddress : d.Addresses reference owner (some [index])) :
    i.ReadOperands d [index, owner] owner (some [index]) := by
  have hreference := hi.reference
  cases haddress with
  | element hbare hindex => exact .whole hi.owner hreference (.bare hbare) hindex
  | nested hbare hnested => exact .nested hi.owner (hreference ▸ hnested) (.bare hbare)

mutual

/-- Code in postorder computes its expression, whatever fragment it runs on. -/
theorem Shape.HasCode.yields {shape : Shape} {code : List Instruction}
    (hcode : shape.HasCode code) {e : Expr} (he : e.Rebuildable d free) (hshape : e.shape = shape) :
    Yields d free code [e] := by
  obtain rfl : e = .ofShape shape := hshape ▸ he.eq_ofShape
  have hrebuildable : shape.Rebuildable d free := he.shape
  match hcode with
  | .literal hloads => exact hloads.yields
  | .function hrefers => exact hrefers.yields hrebuildable
  | .named hreads =>
    exact Yields.nil.read hreads (.named hreads.owner (.inl hreads.reference))
  | .member howner hreads =>
    obtain ⟨-, haddress, hcomputed, -⟩ := hrebuildable
    cases haddress with
    | member hbare =>
      have hslots := howner.yields (hcomputed (by decide)) rfl
      exact hslots.read hreads (.member (.inr hreads.reference) (.bare hbare))
  | .element howner hindex hreads =>
    obtain ⟨-, haddress, hcomputed, hindices⟩ := hrebuildable
    have howner' := hcomputed (haddress.reference_ne_normal rfl)
    have hslots := (howner.yields howner' rfl).append (hindex.yields hindices.1 rfl)
    exact hslots.read hreads (hreads.elementOperands haddress)
  | .cell howner hrow hstride hproduct hcolumn hsum hreads =>
    obtain ⟨-, haddress, hcomputed, hindices⟩ := hrebuildable
    cases haddress with
    | cell hbare hunified =>
      have hscaled := (hrow.yields hindices.1 rfl).binary hstride.yields
        (by rw [hproduct]; rfl)
      have hindex := hscaled.binary (hcolumn.yields hindices.2.1 rfl) (by rw [hsum]; rfl)
      have hslots := (howner.yields (hcomputed (by decide)) rfl).append hindex
      exact hslots.read hreads
        (.grid hreads.owner hreads.reference (.bare hbare) hunified hproduct hsum _ _)
  | .unary hoperand =>
    obtain ⟨hopcode, -, hcomputed⟩ := hrebuildable
    exact (hoperand.yields hcomputed rfl).unary hopcode
  | .binary hleft hright =>
    obtain ⟨hopcode, -, hfirst, hsecond⟩ := hrebuildable
    exact (hleft.yields hfirst rfl).binary (hright.yields hsecond rfl) hopcode
  | .call harguments hopcode hfunction hcount =>
    obtain ⟨hnew, hcopy, -, hall⟩ := hrebuildable
    have hslots := harguments.yields hall
    refine hslots.op (by simp [Instruction.isReturn, hopcode]) fun f _ => ⟨[], ?_⟩
    have hbound := Instruction.boundRoutine?_eq_none fun e he => (hall.of_mem he).shape_ne_routine
    exact Instruction.perform_call_of hopcode hfunction hnew hcopy hcount (hbound _) f
  | .callValue harguments hself hcallee hopcode hcount =>
    obtain ⟨-, hfunction, hinstance, hall⟩ := hrebuildable
    have hslots := ((harguments.yields hall).append (hself.yields hinstance rfl)).append
      (hcallee.yields hfunction rfl)
    refine hslots.op (by simp [Instruction.isReturn, hopcode]) fun f _ => ⟨[], ?_⟩
    exact Instruction.perform_callValue_of hopcode hcount _ _ f
  | .construct harguments hcallee hopcode hfunction hcount =>
    obtain ⟨-, hconstructor, hall⟩ := hrebuildable
    have hslots := (harguments.yields hall).append (hcallee.yields hconstructor rfl)
    refine hslots.op (by simp [Instruction.isReturn, hopcode]) fun f _ => ⟨[], ?_⟩
    have hplain := Instruction.instantiate_eq_construct hconstructor.shape_ne_routine
    exact Instruction.perform_construct_of hopcode hfunction (Nat.sub_eq_of_eq_add hcount)
      (hplain _) f

/-- Code in postorder computes its expressions, the first on top. -/
theorem HaveCode.yields {es : List Expr} {code : List Instruction} (hcode : HaveCode es code)
    (hes : RebuildableAll d free es) : Yields d free code es := by
  match hcode with
  | .nil => exact .nil
  | .cons hrest he => exact (hrest.yields hes.2).append (he.yields hes.1 rfl)

end

namespace Instruction

/-- There is an instruction that pushes a variable, whatever instance it names. -/
theorem exists_reads (v : VarRef) (reference : Reference) (regularPush : Bool) (owner : Instance)
    (howner : owner ≠ .stackTop) :
    ∃ i : Instruction, i.Reads v reference regularPush ∧ i.owner = owner := by
  cases regularPush with
  | true =>
    exact ⟨(pushVariable .push v reference).withOwner owner, ⟨rfl, rfl, rfl, howner, rfl, rfl⟩, rfl⟩
  | false =>
    exact ⟨(pushVariable .pushLocal v reference).withOwner owner, ⟨rfl, rfl, rfl, howner, rfl, rfl⟩,
      rfl⟩

/-- An instruction that stands at the beginning is the one that the tree keeps. -/
theorem atAddress_zero {i : Instruction} (haddress : i.address = 0) : i.atAddress 0 = i := by
  cases i
  cases haddress
  rfl

end Instruction

/-- Every literal has code. -/
theorem Literal.exists_hasCode (value : Literal) : ∃ code, value.shape.HasCode code :=
  ⟨[value.push], .literal (Instruction.loads_push value)⟩

/-- Code for several expressions is made of code for each. -/
theorem HaveCode.of_cons {e : Expr} {es : List Expr} {code : List Instruction}
    (hcode : HaveCode (e :: es) code) :
    (∃ first, e.shape.HasCode first) ∧ ∃ rest, HaveCode es rest := by
  cases hcode with
  | cons hrest he => exact ⟨⟨_, he⟩, ⟨_, hrest⟩⟩

mutual

/-- Every rebuildable expression has code in postorder. -/
theorem Expr.exists_hasCode (e : Expr) (he : e.Rebuildable d free) :
    ∃ code, e.shape.HasCode code := by
  match e with
  | ⟨shape, _, _, _⟩ => exact Shape.exists_hasCode shape he.2.2.2

/-- A shape that code can compute has code: that of its parts, and an instruction. -/
theorem Shape.exists_hasCode (shape : Shape) (hshape : shape.Rebuildable d free) :
    ∃ code, shape.HasCode code := by
  match shape with
  | .int16 value => exact (Literal.int16 value).exists_hasCode
  | .int32 value => exact (Literal.int32 value).exists_hasCode
  | .int64 value => exact (Literal.int64 value).exists_hasCode
  | .double value => exact (Literal.double value).exists_hasCode
  | .string value => exact (Literal.string value).exists_hasCode
  | .boolean value => exact (Literal.boolean value).exists_hasCode
  | .function name =>
    let i := ((Instruction.plain .push).withTypes .int32 .int32).withFunction name 0
    exact ⟨[i], .function ⟨rfl, rfl, rfl⟩⟩
  | .access target => exact Access.exists_hasCode target hshape
  | .unary operator operand =>
    obtain ⟨-, haddress, hoperand⟩ := hshape
    obtain ⟨code, hcode⟩ := Expr.exists_hasCode operand hoperand
    have hunary := Shape.HasCode.unary (i := operator) hcode
    exact ⟨_, Instruction.atAddress_zero haddress ▸ hunary⟩
  | .binary operator left right =>
    obtain ⟨-, haddress, hleft, hright⟩ := hshape
    obtain ⟨leftCode, hleft⟩ := Expr.exists_hasCode left hleft
    obtain ⟨rightCode, hright⟩ := Expr.exists_hasCode right hright
    have hbinary := Shape.HasCode.binary (i := operator) hleft hright
    exact ⟨_, Instruction.atAddress_zero haddress ▸ hbinary⟩
  | .call function arguments =>
    obtain ⟨-, -, hcount, harguments⟩ := hshape
    obtain ⟨code, hcode⟩ := exists_haveCode arguments harguments
    let i : Instruction := .call function arguments.length.toUInt16
    exact ⟨_, .call (i := i) hcode rfl rfl (toNat_toUInt16 hcount)⟩
  | .callValue callee self arguments =>
    obtain ⟨hcount, hcallee, hself, harguments⟩ := hshape
    obtain ⟨code, hcode⟩ := exists_haveCode arguments harguments
    obtain ⟨selfCode, hself⟩ := Expr.exists_hasCode self hself
    obtain ⟨calleeCode, hcallee⟩ := Expr.exists_hasCode callee hcallee
    let i : Instruction :=
      { Instruction.plain .callValue with argCount := arguments.length.toUInt16 }
    exact ⟨_, .callValue (i := i) hcode hself hcallee rfl (toNat_toUInt16 hcount)⟩
  | .construct callee arguments =>
    obtain ⟨hcount, hcallee, harguments⟩ := hshape
    obtain ⟨code, hcode⟩ := exists_haveCode arguments harguments
    obtain ⟨calleeCode, hcallee⟩ := Expr.exists_hasCode callee hcallee
    let i : Instruction := .call Reserved.newObject (arguments.length + 1).toUInt16
    exact ⟨_, .construct (i := i) hcode hcallee rfl rfl (toNat_toUInt16 hcount)⟩

/-- An access that code can compute has code: that of its operands, and a push. -/
theorem Access.exists_hasCode (a : Access) (ha : a.Rebuildable d free) :
    ∃ code, (Shape.access a).HasCode code := by
  match a with
  | ⟨v, reference, owner, indices, regularPush, argumentName⟩ =>
    obtain ⟨rfl, haddress, howner, hindices⟩ := ha
    have hcomputed (hnamed : reference ≠ .normal) : ∃ code, owner.shape.HasCode code :=
      Expr.exists_hasCode owner (howner hnamed)
    obtain ⟨indexCode, hcodes⟩ := exists_indexCode indices hindices
    obtain ⟨i, hreads, -⟩ := Instruction.exists_reads v reference regularPush .own (by decide)
    have hnested := haddress.reference_ne_normal
    cases haddress with
    | named hnamed =>
      obtain ⟨i, hreads, rfl⟩ := Instruction.exists_reads v .normal regularPush _ hnamed
      exact ⟨[i], .named hreads⟩
    | member =>
      obtain ⟨ownerCode, howner⟩ := hcomputed (by decide)
      exact ⟨_, .member howner hreads⟩
    | element =>
      obtain ⟨ownerCode, howner⟩ := hcomputed (by decide)
      obtain ⟨⟨indexCode, hindex⟩, -⟩ := hcodes.of_cons
      exact ⟨_, .element howner hindex hreads⟩
    | nested =>
      obtain ⟨ownerCode, howner⟩ := hcomputed (hnested rfl)
      obtain ⟨⟨indexCode, hindex⟩, -⟩ := hcodes.of_cons
      exact ⟨_, .element howner hindex hreads⟩
    | cell =>
      obtain ⟨ownerCode, howner⟩ := hcomputed (by decide)
      obtain ⟨⟨rowCode, hrow⟩, columnCodes, hcolumns⟩ := hcodes.of_cons
      obtain ⟨⟨columnCode, hcolumn⟩, -⟩ := hcolumns.of_cons
      have hstride := Instruction.loads_push (.int32 Reserved.rowStride)
      have hproduct : (Instruction.plain .multiply).opcode = .multiply := rfl
      have hsum : (Instruction.plain .add).opcode = .add := rfl
      exact ⟨_, .cell howner hrow hstride hproduct hcolumn hsum hreads⟩

/-- Indices that code can compute have code. -/
theorem exists_indexCode (indices : Option (List Expr))
    (hindices : RebuildableIndices d free indices) :
    ∃ code, HaveCode (indices.getD []) code := by
  match indices with
  | none => exact ⟨[], .nil⟩
  | some es => exact exists_haveCode es hindices

/-- Expressions that code can compute have code, one after another. -/
theorem exists_haveCode (es : List Expr) (hes : RebuildableAll d free es) :
    ∃ code, HaveCode es code := by
  match es with
  | [] => exact ⟨[], .nil⟩
  | e :: es =>
    obtain ⟨restCode, hrest⟩ := exists_haveCode es hes.2
    obtain ⟨code, hcode⟩ := Expr.exists_hasCode e hes.1
    exact ⟨_, .cons hrest hcode⟩

end

/-- Code in postorder rebuilds its expression, and there is such code for every expression that is
rebuildable where no routine is pending under a name that it refers to. Wherever the code runs, it
succeeds, puts the expression on the stack, gives no statement, and changes nothing else of the
fragment but the lists of local variables. -/
theorem Expr.rebuilt_from_postorder (d : Dialect) (f : Fragment) (e : Expr)
    (he : e.Rebuildable d fun name => f.pending.lookup name = none) :
    (∃ code, e.shape.HasCode code) ∧
      ∀ code, e.shape.HasCode code → ∀ output, ∃ locals purge,
        code.foldlM (Machine.step d) ⟨f, output⟩ =
          .ok ⟨{ f with stack := e :: f.stack, locals := locals, purge := purge }, output⟩ := by
  refine ⟨e.exists_hasCode he, fun code hcode output => ?_⟩
  obtain ⟨names, hrun⟩ := hcode.yields he rfl f fun name hname => hname
  rw [Fragment.noteLocals_eq] at hrun
  exact ⟨_, _, hrun output⟩

namespace Sample

/-- The tree of `grid[i, 2] * count(move, "all")`, where `grid` is a two-dimensional array and
`move` is a function. -/
def scaledCell : Expr :=
  let index : Expr := .ofShape (.access
    ⟨⟨"i", .locals⟩, .normal, .ofShape (.keyword .locals), none, false, none⟩)
  let cell : Expr := .ofShape (.access
    ⟨⟨"grid", .own⟩, .array, .ofShape (.int16 (-1)), some [index, .ofShape (.int16 2)], true, none⟩)
  let count : Expr := .ofShape (.call "count"
    [.ofShape (.function "move"), .ofShape (.string "all")])
  .ofShape (.binary (.plain .multiply) cell count)

end Sample

/-- The tree has code in a dialect that addresses cells by two indices, and all its code gives it
back. -/
theorem rebuilt_from_postorder_scaledCell :
    Sample.scaledCell.Rebuildable Version.legacy.dialect
        (fun name => ({} : Fragment).pending.lookup name = none) ∧
      (∃ code, Sample.scaledCell.shape.HasCode code) ∧
      ∀ code, Sample.scaledCell.shape.HasCode code → ∀ output, ∃ locals purge,
        code.foldlM (Machine.step Version.legacy.dialect) ⟨{}, output⟩ =
          .ok ⟨{ ({} : Fragment) with
            stack := [Sample.scaledCell], locals := locals, purge := purge }, output⟩ := by
  have hindex : (Expr.ofShape (.access ⟨⟨"i", .locals⟩, .normal, .ofShape (.keyword .locals), none,
      false, none⟩)).Rebuildable Version.legacy.dialect
        (fun name => ({} : Fragment).pending.lookup name = none) :=
    ⟨rfl, rfl, rfl, rfl, .named (by decide), fun h => absurd rfl h, trivial⟩
  have he : Sample.scaledCell.Rebuildable Version.legacy.dialect
      (fun name => ({} : Fragment).pending.lookup name = none) := by
    refine ⟨rfl, rfl, rfl, rfl, rfl, ⟨rfl, rfl, rfl, rfl, .cell rfl rfl, fun _ => ?_, hindex, ?_⟩,
      ?_⟩
    · exact ⟨rfl, rfl, rfl, trivial⟩
    · exact ⟨⟨rfl, rfl, rfl, trivial⟩, trivial⟩
    · exact ⟨rfl, rfl, rfl, by decide, by decide, by decide, ⟨rfl, rfl, rfl, rfl⟩,
        ⟨rfl, rfl, rfl, trivial⟩, trivial⟩
  exact ⟨he, Expr.rebuilt_from_postorder _ _ _ he⟩

end GmlDecompiler

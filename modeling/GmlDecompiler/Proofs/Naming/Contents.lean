import GmlDecompiler.Tree.Expr

/-!
# What a tree contains

The variables that a piece of code accesses itself, and all routines declared in it at any
depth. A routine and a struct literal have a scope of their own: what they access is not
accessed by the code around them. Only the values that a struct literal is made from are.
-/

namespace GmlDecompiler

/-- What a tree contains. -/
structure Contents where
  /-- The variables it accesses in its own scope. -/
  accesses : List Access := []
  /-- The routines declared in it, at any depth. -/
  routines : List Routine := []

namespace Contents

instance : Append Contents where
  append k l := ⟨k.accesses ++ l.accesses, k.routines ++ l.routines⟩

/-- What is inside a scope of its own, seen from outside. -/
def enclosed (k : Contents) : Contents where
  routines := k.routines

/-- The tree refers to the argument with an index, in its own scope. -/
def Refers (k : Contents) (i : Nat) : Prop :=
  ∃ a ∈ k.accesses, a.argumentIndex? = some i

/-- Everything in one tree is in another. -/
structure Within (k l : Contents) : Prop where
  accesses : k.accesses ⊆ l.accesses
  routines : k.routines ⊆ l.routines

/-- The accesses of two trees together. -/
@[simp] theorem accesses_append (k l : Contents) :
    (k ++ l).accesses = k.accesses ++ l.accesses := rfl

/-- The routines of two trees together. -/
@[simp] theorem routines_append (k l : Contents) :
    (k ++ l).routines = k.routines ++ l.routines := rfl

/-- What a scope of its own accesses is not accessed around it. -/
@[simp] theorem accesses_enclosed (k : Contents) : k.enclosed.accesses = [] := rfl

/-- The routines in a scope of its own count as routines of the tree around it. -/
@[simp] theorem routines_enclosed (k : Contents) : k.enclosed.routines = k.routines := rfl

namespace Within

variable {k l m k' l' : Contents}

/-- A tree contains what it contains. -/
theorem refl (k : Contents) : k.Within k :=
  ⟨List.Subset.refl _, List.Subset.refl _⟩

/-- What is within a part is within the whole. -/
theorem trans (hkl : k.Within l) (hlm : l.Within m) : k.Within m :=
  ⟨List.Subset.trans hkl.accesses hlm.accesses, List.Subset.trans hkl.routines hlm.routines⟩

/-- Nothing is within everything. -/
theorem empty (k : Contents) : ({} : Contents).Within k :=
  ⟨List.nil_subset _, List.nil_subset _⟩

/-- Two trees that are within a third one are so together. -/
theorem join (hk : k.Within m) (hl : l.Within m) : (k ++ l).Within m :=
  ⟨List.append_subset.mpr ⟨hk.accesses, hl.accesses⟩,
    List.append_subset.mpr ⟨hk.routines, hl.routines⟩⟩

/-- The first of two trees is within both together. -/
theorem left (k l : Contents) : k.Within (k ++ l) :=
  ⟨List.subset_append_left _ _, List.subset_append_left _ _⟩

/-- The second of two trees is within both together. -/
theorem right (k l : Contents) : l.Within (k ++ l) :=
  ⟨List.subset_append_right _ _, List.subset_append_right _ _⟩

/-- Trees together are within others together, if each one is within its own. -/
theorem append (hk : k.Within k') (hl : l.Within l') : (k ++ l).Within (k' ++ l') :=
  (hk.trans (left k' l')).join (hl.trans (right k' l'))

/-- What is within a tree refers to no other arguments. -/
theorem refers (hkl : k.Within l) {i : Nat} (hi : k.Refers i) : l.Refers i := by
  obtain ⟨a, ha, hindex⟩ := hi
  exact ⟨a, hkl.accesses ha, hindex⟩

end Within

end Contents

mutual

/-- What an expression contains. -/
def Expr.contents : Expr → Contents
  | ⟨shape, _, _, _⟩ => shape.contents

/-- What a shape contains. -/
def Shape.contents : Shape → Contents
  | .access a => a.contents
  | .unary _ operand => operand.contents
  | .binary _ left right => left.contents ++ right.contents
  | .call _ arguments => exprContents arguments
  | .callValue callee self arguments =>
    callee.contents ++ self.contents ++ exprContents arguments
  | .construct callee arguments => callee.contents ++ exprContents arguments
  | .chain _ conditions => exprContents conditions
  | .routine r => ⟨[], r :: r.contents.routines⟩
  | .struct r => r.valueContents ++ r.innerContents.enclosed
  | .int16 _ | .int32 _ | .int64 _ | .double _ | .string _ | .boolean _ | .keyword _
  | .function _ | .constant _ => {}

/-- What an access contains: its owner, its indices and itself. -/
def Access.contents : Access → Contents
  | ⟨target, reference, owner, indices, regularPush, argumentName⟩ =>
    owner.contents ++ optionalExprsContents indices
      ++ ⟨[⟨target, reference, owner, indices, regularPush, argumentName⟩], []⟩

/-- What expressions contain. -/
def exprContents : List Expr → Contents
  | [] => {}
  | e :: es => e.contents ++ exprContents es

/-- What expressions contain, if there are any. -/
def optionalExprsContents : Option (List Expr) → Contents
  | none => {}
  | some es => exprContents es

/-- What an expression contains, if there is one. -/
def optionalExprContents : Option Expr → Contents
  | none => {}
  | some e => e.contents

/-- What a statement contains. -/
def Stmt.contents : Stmt → Contents
  | .block block => block.contents
  | .eval value | .ret value => value.contents
  | .assign target value | .static target value => target.contents ++ value.contents
  | .branch condition thenPart elsePart =>
    condition.contents ++ thenPart.contents ++ optionalBlockContents elsePart
  | .loop condition body => condition.contents ++ body.contents
  | .guarded body cleanup => body.contents ++ optionalBlockContents cleanup
  | .routine r => ⟨[], r :: r.contents.routines⟩
  | .exit | .leave | .again | .locals _ | .enum _ => {}

/-- What a block contains. -/
def Block.contents : Block → Contents
  | ⟨statements, _⟩ => stmtContents statements

/-- What a block contains, if there is one. -/
def optionalBlockContents : Option Block → Contents
  | none => {}
  | some block => block.contents

/-- What statements contain. -/
def stmtContents : List Stmt → Contents
  | [] => {}
  | s :: ss => s.contents ++ stmtContents ss

/-- What the scope of a routine contains: its body, its default values and the call of its
parent constructor. -/
def Routine.contents : Routine → Contents
  | ⟨_, _, body, fragment, defaults, _, _, _⟩ =>
    body.contents ++ fragment.parentContents ++ defaultContents defaults

/-- What the scope of a struct literal contains. -/
def Routine.innerContents : Routine → Contents
  | ⟨_, _, body, fragment, _, _, _, _⟩ => body.contents ++ fragment.parentContents

/-- What the values of a struct literal contain. -/
def Routine.valueContents : Routine → Contents
  | ⟨_, _, _, fragment, _, _, _, _⟩ => fragment.valueContents

/-- What default values contain. -/
def defaultContents : List (Nat × Expr) → Contents
  | [] => {}
  | (_, e) :: rest => e.contents ++ defaultContents rest

/-- What the call of the parent constructor contains. -/
def Fragment.parentContents : Fragment → Contents
  | ⟨_, _, _, _, _, _, _, _, _, _, _, _, parentCall⟩ => optionalExprContents parentCall

/-- What the values of a struct literal contain. -/
def Fragment.valueContents : Fragment → Contents
  | ⟨_, _, _, _, _, _, _, _, _, _, _, structArguments, _⟩ =>
    optionalExprsContents structArguments

end

/-- An expression contains what its shape contains. -/
theorem Expr.contents_eq (e : Expr) : e.contents = e.shape.contents := by
  cases e
  rfl

/-- An access contains what its owner and its indices contain, and itself. -/
theorem Access.contents_eq (a : Access) :
    a.contents = a.owner.contents ++ optionalExprsContents a.indices ++ ⟨[a], []⟩ := by
  cases a
  rfl

/-- A block contains what its statements contain. -/
theorem Block.contents_eq (block : Block) : block.contents = stmtContents block.statements := by
  cases block
  rfl

/-- The scope of a routine has its body in it, and the call of its parent constructor. -/
theorem Routine.innerContents_eq (r : Routine) :
    r.innerContents = r.body.contents ++ optionalExprContents r.fragment.parentCall := by
  obtain ⟨_, _, _, fragment, _, _, _, _⟩ := r
  cases fragment
  rfl

/-- A routine contains what is in its scope, and its default values. -/
theorem Routine.contents_eq (r : Routine) :
    r.contents = r.innerContents ++ defaultContents r.defaults := by
  cases r
  rfl

/-- The values that a struct literal is made from. -/
theorem Routine.valueContents_eq (r : Routine) :
    r.valueContents = optionalExprsContents r.fragment.structArguments := by
  obtain ⟨_, _, _, fragment, _, _, _, _⟩ := r
  cases fragment
  rfl

/-- Expressions contain what each of them contains. -/
theorem mem_routines_exprContents {es : List Expr} {r : Routine} :
    r ∈ (exprContents es).routines ↔ ∃ e ∈ es, r ∈ e.contents.routines := by
  induction es with
  | nil => simp [exprContents]
  | cons e es ih => simp [exprContents, ih]

/-- Statements contain what each of them contains. -/
theorem mem_routines_stmtContents {ss : List Stmt} {r : Routine} :
    r ∈ (stmtContents ss).routines ↔ ∃ s ∈ ss, r ∈ s.contents.routines := by
  induction ss with
  | nil => simp [stmtContents]
  | cons s ss ih => simp [stmtContents, ih]

/-- A statement contains no more than the statements that it is one of. -/
theorem Stmt.contents_within {s : Stmt} {ss : List Stmt} (hs : s ∈ ss) :
    s.contents.Within (stmtContents ss) := by
  induction ss with
  | nil => cases hs
  | cons first rest ih =>
    rcases List.mem_cons.mp hs with rfl | hs
    · exact .left _ _
    · exact (ih hs).trans (.right _ _)

/-- Statements are within a tree if each of them is. -/
theorem stmtContents_within {ss : List Stmt} {k : Contents}
    (hss : ∀ s ∈ ss, s.contents.Within k) : (stmtContents ss).Within k := by
  induction ss with
  | nil => exact .empty _
  | cons s ss ih =>
    obtain ⟨hs, hss⟩ := List.forall_mem_cons.mp hss
    exact hs.join (ih hss)

/-- Default values contain no more than something that each of them is within. -/
theorem defaultContents_within {defaults : List (Nat × Expr)} {k : Contents}
    (hdefaults : ∀ p ∈ defaults, p.2.contents.Within k) :
    (defaultContents defaults).Within k := by
  induction defaults with
  | nil => exact .empty _
  | cons p rest ih =>
    obtain ⟨hp, hrest⟩ := List.forall_mem_cons.mp hdefaults
    exact hp.join (ih hrest)

end GmlDecompiler

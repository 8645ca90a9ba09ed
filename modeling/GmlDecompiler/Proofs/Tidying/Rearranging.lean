import GmlDecompiler.Proofs.Building.Parts

/-!
# Rearranging expressions

Tidying puts operands in parentheses and reads integers as names. Neither looks into an expression:
its shape stays as it is, or a shape with nothing in it takes its place.
-/

namespace GmlDecompiler

/-- The shape is one with nothing in it. -/
def Shape.isAtom : Shape → Bool
  | .int16 _ | .int32 _ | .int64 _ | .double _ | .string _ | .boolean _ | .keyword _
  | .function _ | .constant _ => true
  | .access _ | .unary _ _ | .binary _ _ _ | .call _ _ | .callValue _ _ _ | .construct _ _
  | .chain _ _ | .routine _ | .struct _ => false

/-- An atom has nothing in it. -/
theorem Shape.parts_of_isAtom {shape : Shape} (hatom : shape.isAtom = true) :
    shape.parts = [] ∧ shape.routine? = none := by
  cases shape with
  | int16 | int32 | int64 | double | string | boolean | keyword | function | constant =>
    exact ⟨rfl, rfl⟩
  | access | unary | binary | call | callValue | construct | chain | routine | struct =>
    cases hatom

/-- The expression in the place of another: it has the same shape, or one with nothing in it. -/
def Expr.Redrawn (e e' : Expr) : Prop :=
  e'.shape = e.shape ∨ e'.shape.isAtom = true

namespace Expr.Redrawn

/-- An expression stands in its own place. -/
theorem refl (e : Expr) : e.Redrawn e :=
  .inl rfl

/-- What stands in the place of what stands in the place of an expression stands in its place. -/
theorem trans {e e' e'' : Expr} (hfirst : e.Redrawn e') (hsecond : e'.Redrawn e'') :
    e.Redrawn e'' := by
  rcases hsecond with hsame | hatom
  · rw [Redrawn, hsame]
    exact hfirst
  · exact .inr hatom

end Expr.Redrawn

/-- Parentheses do not change the shape. -/
theorem Expr.groupIf_redrawn (condition : Bool) (e : Expr) : e.Redrawn (e.groupIf condition) :=
  .inl rfl

/-- A reading puts a constant in the place of a literal. -/
theorem Reading.apply_redrawn (enums : List EnumDef) (reading : Reading) (e : Expr) :
    e.Redrawn (reading.apply enums e) := by
  unfold Reading.apply
  split
  · rename_i shape hshape
    obtain ⟨value, -, hvalue⟩ := Option.bind_eq_some_iff.mp hshape
    refine .inr ?_
    unfold Reading.resolve? at hvalue
    split at hvalue <;> obtain ⟨x, -, rfl⟩ := Option.map_eq_some_iff.mp hvalue <;> rfl
  · exact .refl e

/-- What the parts of an expression pass on is not lost when the expression is redrawn. -/
theorem Inherited.of_redrawn {E : Expr → Prop} {S : Bool → Stmt → Prop}
    {declared literal : Routine → Prop} (h : Inherited E S declared literal) {e e' : Expr}
    (he : E e) (hredrawn : e.Redrawn e') : E e' := by
  rcases hredrawn with hsame | hatom
  · exact h.of_shape_eq he hsame
  · obtain ⟨hparts, hroutine⟩ := Shape.parts_of_isAtom hatom
    have hshape : E (Expr.ofShape e'.shape) := h.ofShape (by simp [hparts]) hroutine
    exact h.of_shape_eq hshape rfl

/-- Each argument that was read stands in the place of an argument. -/
theorem Readings.exists_of_mem_applyAll {enums : List EnumDef} {readings : List (Option Reading)}
    {es : List Expr} {e' : Expr} (he' : e' ∈ Readings.applyAll enums readings es) :
    ∃ e ∈ es, e.Redrawn e' := by
  fun_induction Readings.applyAll enums readings es with
  | case1 reading readings e es ih =>
    rcases List.mem_cons.mp he' with rfl | he'
    · exact ⟨e, List.mem_cons_self, reading.apply_redrawn enums e⟩
    · obtain ⟨source, hsource, hredrawn⟩ := ih he'
      exact ⟨source, List.mem_cons_of_mem _ hsource, hredrawn⟩
  | case2 readings e es ih =>
    rcases List.mem_cons.mp he' with rfl | he'
    · exact ⟨e', List.mem_cons_self, .refl e'⟩
    · obtain ⟨source, hsource, hredrawn⟩ := ih he'
      exact ⟨source, List.mem_cons_of_mem _ hsource, hredrawn⟩
  | case3 => exact ⟨e', he', .refl e'⟩

/-- Each argument of a call stands in the place of one, whether the function has readings or not. -/
theorem Readings.exists_of_mem_readArguments {r : Readings} {enums : List EnumDef}
    {function : String} {es : List Expr} {e' : Expr}
    (he' : e' ∈ r.readArguments enums function es) : ∃ e ∈ es, e.Redrawn e' := by
  unfold Readings.readArguments at he'
  split at he'
  · exact Readings.exists_of_mem_applyAll he'
  · exact ⟨e', he', .refl e'⟩

namespace Config

variable (c : Config)

/-- What is read beside a variable stands in the place of an operand. -/
theorem readBeside_redrawn {beside e e' : Expr} (hread : c.readBeside beside e = some e') :
    e.Redrawn e' := by
  obtain ⟨a, -, hread⟩ := Option.bind_eq_some_iff.mp hread
  obtain ⟨reading, -, rfl⟩ := Option.map_eq_some_iff.mp hread
  exact reading.apply_redrawn c.enums e

/-- The operand beside a variable stays or is read. -/
theorem readBeside_getD_redrawn (beside e : Expr) :
    e.Redrawn ((c.readBeside beside e).getD e) := by
  cases hread : c.readBeside beside e with
  | none => exact .refl e
  | some e' => exact c.readBeside_redrawn hread

/-- Both operands of a comparison stay or are read. -/
theorem readCompared_redrawn (left right : Expr) :
    left.Redrawn (c.readCompared left right).1 ∧ right.Redrawn (c.readCompared left right).2 := by
  unfold readCompared
  split
  · rename_i right' hread
    exact ⟨.refl left, c.readBeside_redrawn hread⟩
  · exact ⟨c.readBeside_getD_redrawn right left, .refl right⟩

/-- Operands are read and put in parentheses. -/
theorem operands_redrawn (operator : Instruction) (left right : Expr) :
    left.Redrawn (c.operands operator left right).1 ∧
      right.Redrawn (c.operands operator left right).2 := by
  let read := if operator.opcode = .compare then c.readCompared left right else (left, right)
  have hread : left.Redrawn read.1 ∧ right.Redrawn read.2 := by
    unfold read
    split
    · exact c.readCompared_redrawn left right
    · exact ⟨.refl left, .refl right⟩
  exact ⟨hread.1.trans (Expr.groupIf_redrawn _ _), hread.2.trans (Expr.groupIf_redrawn _ _)⟩

/-- A condition of a chain stays or gets parentheses. -/
theorem groupCondition_redrawn (e : Expr) : e.Redrawn (groupCondition e) := by
  unfold groupCondition
  split
  · exact Expr.groupIf_redrawn true e
  · exact .refl e

/-- An assignment stays one, with its value read, unless it declares the routine that is its
value. -/
theorem assign_eq (target value : Expr) :
    ∃ value', value.Redrawn value' ∧ (c.assign target value = .assign target value' ∨
      ∃ r, value'.shape = .routine r ∧ c.assign target value = .routine r) := by
  refine ⟨_, c.readBeside_getD_redrawn target value, ?_⟩
  unfold assign
  dsimp only
  split
  · rename_i r hshape
    split
    · exact .inr ⟨r, hshape, rfl⟩
    · exact .inl rfl
  · exact .inl rfl

end Config

end GmlDecompiler

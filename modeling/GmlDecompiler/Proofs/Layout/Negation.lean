import GmlDecompiler.Program
import GmlDecompiler.Proofs.Layout.Balance
import GmlDecompiler.Proofs.Layout.Operators
import GmlDecompiler.Proofs.Naming.Tidying

/-!
# Negations

A negation is written as a minus sign before its operand. The operand gets parentheses if it is an
operation with two operands or a chain of conditions, and no others. So the sign is followed by a
second one exactly if an operand of another kind begins with a minus sign, as negative numbers and
negations do.
-/

namespace GmlDecompiler

/-- The text begins with a minus sign. -/
def startsWithMinus (text : String) : Bool :=
  text.toList.head? == some '-'

/-- A text that is followed by another beginning begins as it does alone, unless the other begins
with a minus sign. -/
theorem startsWithMinus_append {first second : String} (hsecond : startsWithMinus second = false) :
    startsWithMinus (first ++ second) = startsWithMinus first := by
  unfold startsWithMinus at hsecond ⊢
  rw [String.toList_append, List.head?_append]
  cases first.toList with
  | nil => exact hsecond
  | cons c cs => rfl

/-- The first character of a text that goes on is that of its beginning, if that has one. -/
theorem startsWithMinus_append_of_ne_empty {first : String} (hfirst : first ≠ "")
    (second : String) : startsWithMinus (first ++ second) = startsWithMinus first := by
  unfold startsWithMinus
  rw [String.toList_append]
  cases hchars : first.toList with
  | nil => exact absurd (String.toList_eq_nil_iff.mp hchars) hfirst
  | cons c cs => rfl

/-- The text of a natural number begins with a digit. -/
theorem startsWithMinus_repr_append (n : Nat) (rest : String) :
    startsWithMinus (n.repr ++ rest) = false := by
  obtain ⟨c, cs, hcs⟩ := List.exists_cons_of_ne_nil (Nat.toDigits_ne_nil (n := n) (b := 10))
  have hc : c ∈ Nat.toDigits 10 n := by simp [hcs]
  have hdigit := Nat.isDigit_of_mem_toDigits (by omega) (by omega) hc
  unfold startsWithMinus
  rw [String.toList_append, Nat.toList_repr, hcs, List.cons_append, List.head?_cons,
    beq_eq_false_iff_ne]
  rintro hminus
  cases Option.some.inj hminus
  revert hdigit
  decide

/-- The numeral of an integer begins with a minus sign exactly if the integer is negative. -/
theorem startsWithMinus_toString (value : Int) :
    startsWithMinus (toString value) = decide (value < 0) := by
  cases value with
  | ofNat n =>
    have hnumber := startsWithMinus_repr_append n ""
    rw [String.append_empty] at hnumber
    have hnonneg : ¬ Int.ofNat n < 0 := Int.not_lt.mpr (Int.natCast_nonneg n)
    rw [decide_eq_false hnonneg]
    exact hnumber
  | negSucc n =>
    have htext : toString (Int.negSucc n) = "-" ++ (n + 1).repr := rfl
    rw [htext, decide_eq_true (Int.negSucc_lt_zero n), startsWithMinus, String.toList_append]
    rfl

/-- A list of digits and points begins with no minus sign. -/
theorem startsWithMinus_ofList {chars : List Char} (hchars : '-' ∉ chars) :
    startsWithMinus (String.ofList chars) = false := by
  unfold startsWithMinus
  rw [String.toList_ofList, beq_eq_false_iff_ne]
  intro hminus
  exact hchars (List.mem_of_head? hminus)

/-- The decimal digits of a number have no minus sign among them. -/
theorem minus_notMem_toString (n : Nat) : '-' ∉ (toString n).toList := by
  intro hminus
  rw [Nat.toString_eq_repr, Nat.toList_repr] at hminus
  have hdigit := Nat.isDigit_of_mem_toDigits (by omega) (by omega) hminus
  revert hdigit
  decide

/-- The digits of a number, without its sign, do not begin with a minus sign. -/
theorem Double.startsWithMinus_decimalText (d : Decimal) : startsWithMinus d.text = false := by
  unfold Decimal.text
  split
  · exact startsWithMinus_repr_append d.digits _
  · refine startsWithMinus_ofList ?_
    have hdigits := minus_notMem_toString d.digits
    have hpadded (count : Nat) : '-' ∉ List.replicate count '0' ++ (toString d.digits).toList :=
      fun hminus => (List.mem_append.mp hminus).elim
        (fun hzero => absurd (List.eq_of_mem_replicate hzero) (by decide)) hdigits
    intro hminus
    rcases List.mem_append.mp hminus with hwhole | hplaces
    · exact hpadded _ (List.mem_of_mem_take hwhole)
    · rcases List.mem_cons.mp hplaces with hpoint | hplaces
      · revert hpoint
        decide
      · exact hpadded _ (List.mem_of_mem_drop hplaces)

/-- The text of a number begins with a minus sign if its sign bit is set, unless it is the word for
what is no number. -/
theorem Double.startsWithMinus_text (d : Double) :
    startsWithMinus d.text = (d.negative && !d.isNaN) := by
  have hmagnitude : startsWithMinus (if d.isInfinite then "inf" else if d.isZero then "0"
      else (d.shortest .up).text) = false := by
    split
    · decide
    · split
      · decide
      · exact startsWithMinus_decimalText _
  unfold text
  cases d.isNaN with
  | true => simp; decide
  | false =>
    cases d.negative with
    | true => simp [startsWithMinus, String.toList_append]
    | false => simpa using hmagnitude

/-- A string literal begins with a quote. -/
theorem startsWithMinus_quoteString (text : String) :
    startsWithMinus (quoteString text) = false := by
  rw [startsWithMinus, quoteString, String.toList_ofList]
  rfl

/-- Only the sign of a negation is a minus sign. -/
theorem Instruction.unarySymbol_spec (i : Instruction) :
    i.unarySymbol ≠ "" ∧ startsWithMinus i.unarySymbol = decide (i.opcode = .negate) := by
  unfold unarySymbol
  by_cases hnegate : i.opcode = .negate
  · rw [if_pos hnegate, decide_eq_true hnegate]
    decide
  · rw [if_neg hnegate, decide_eq_false hnegate]
    split <;> decide

variable (shown : String → String)

mutual

/-- The text of the expression begins with a minus sign, if the names of functions are shown as
given. -/
def Expr.opensWithMinus : Expr → Bool
  | ⟨shape, _, grouped, _⟩ => !grouped && shape.opensWithMinus

/-- The text of the shape begins with a minus sign. -/
def Shape.opensWithMinus : Shape → Bool
  | .int16 value => value.toInt < 0
  | .int32 value => value.toInt < 0
  | .int64 value => value.toInt < 0
  | .double value => value.negative && !value.isNaN
  | .keyword value => startsWithMinus value.text
  | .function name => startsWithMinus (shown name)
  | .constant name => startsWithMinus name
  | .access a => a.opensWithMinus
  | .unary operator _ => operator.opcode = .negate
  | .binary _ left _ => left.opensWithMinus
  | .call function _ => startsWithMinus (shown function)
  | .callValue callee _ _ => callee.opensWithMinus
  | .chain _ conditions => firstOpensWithMinus conditions
  | .string _ | .boolean _ | .construct _ _ | .routine _ | .struct _ => false

/-- The text of the access begins with a minus sign: that of its name, or of its owner if it is
written before. -/
def Access.opensWithMinus : Access → Bool
  | ⟨_, _, _, _, _, some name⟩ => startsWithMinus name
  | ⟨target, _, owner, _, _, none⟩ =>
    match owner.instance? with
    | some value => startsWithMinus (if value.isImplicit then target.name else value.text)
    | none => owner.opensWithMinus

/-- The text of the first expression begins with a minus sign. -/
def firstOpensWithMinus : List Expr → Bool
  | [] => false
  | e :: _ => e.opensWithMinus

end

namespace Printer

variable (p : Printer)

/-- Writing a text writes it. -/
theorem written_write (text : String) : p.written [.write text] = text :=
  String.empty_append

/-- Writing a function writes the name that it is shown by. -/
theorem written_function (name : String) : p.written [.function name] = p.shownName name :=
  String.empty_append

/-- What begins with some text begins with a minus sign if that text does. -/
theorem startsWithMinus_written_cons {text : String} (htext : text ≠ "") (rest : List Step) :
    startsWithMinus (p.written (.write text :: rest)) = startsWithMinus text := by
  have hsplit := p.written_append [.write text] rest
  rw [written_write, List.singleton_append] at hsplit
  rw [hsplit, startsWithMinus_append_of_ne_empty htext]

/-- What comes before some other text begins with a minus sign as it does alone. -/
theorem startsWithMinus_written_append {text : String} (htext : text ≠ "")
    (hplain : startsWithMinus text = false) (first rest : List Step) :
    startsWithMinus (p.written (first ++ .write text :: rest)) =
      startsWithMinus (p.written first) := by
  have hrest := (p.run first).startsWithMinus_written_cons htext rest
  rw [p.written_append, startsWithMinus_append (hrest.trans hplain)]

end Printer

/-- The name of a variable comes before its indices. -/
theorem startsWithMinus_written_indices (p : Printer) (name : String)
    {indices : Option (List Expr)} {steps : List Step} (hindices : indexSteps indices = .ok steps) :
    startsWithMinus (p.written (.write name :: steps)) = startsWithMinus name := by
  cases indices with
  | none =>
    cases hindices
    rw [p.written_write]
  | some indices =>
    obtain ⟨inside, -, hsteps⟩ := exists_of_bind_eq_ok hindices
    cases hsteps
    exact (p.startsWithMinus_written_append (by decide) (by decide) [.write name] _).trans
      (congrArg startsWithMinus (p.written_write name))

/-- A routine begins with a word. -/
theorem Routine.startsWithMinus_steps {r : Routine} {steps : List Step}
    (hsteps : r.steps = .ok steps) (p : Printer) : startsWithMinus (p.written steps) = false := by
  obtain ⟨name, isConstructor, body, fragment, defaults, parameters, blankBefore, blankAfter⟩ := r
  obtain ⟨first, -, hsteps⟩ := exists_of_bind_eq_ok hsteps
  obtain ⟨second, -, hsteps⟩ := exists_of_bind_eq_ok hsteps
  obtain ⟨third, -, hsteps⟩ := exists_of_bind_eq_ok hsteps
  cases hsteps
  cases name with
  | none => exact p.startsWithMinus_written_cons (by decide) _
  | some name => exact p.startsWithMinus_written_cons (by decide) _

/-- A struct literal begins with a brace. -/
theorem Routine.startsWithMinus_structSteps {r : Routine} {steps : List Step}
    (hsteps : r.structSteps = .ok steps) (p : Printer) :
    startsWithMinus (p.written steps) = false := by
  obtain ⟨name, isConstructor, ⟨statements, braced⟩, fragment, defaults, parameters, blankBefore,
    blankAfter⟩ := r
  rw [Routine.structSteps, Block.structSteps] at hsteps
  split at hsteps
  · cases hsteps
  · split at hsteps
    · cases hsteps
      exact p.startsWithMinus_written_cons (by decide) _
    · obtain ⟨members, -, hsteps⟩ := exists_of_bind_eq_ok hsteps
      cases hsteps
      have hsplit := p.written_append [.openInline] (members ++ [.closeBlock])
      rw [List.singleton_append] at hsplit
      rw [List.cons_append, hsplit]
      have hbrace : p.written [.openInline] = "\x7b\n" := rfl
      rw [hbrace, startsWithMinus_append_of_ne_empty (by decide)]
      rfl

mutual

/-- The text of an expression begins with a minus sign exactly if its leftmost part does. -/
theorem Expr.startsWithMinus_steps (e : Expr) {steps : List Step} (hsteps : e.steps = .ok steps)
    (p : Printer) : startsWithMinus (p.written steps) = e.opensWithMinus p.shownName :=
  match e with
  | ⟨shape, _, grouped, _⟩ => by
    obtain ⟨inner, hinner, hsteps⟩ := exists_of_bind_eq_ok hsteps
    cases hsteps
    cases grouped with
    | true => exact p.startsWithMinus_written_cons (by decide) _
    | false => exact shape.startsWithMinus_steps hinner p
termination_by structural e

/-- A shape is written with a minus sign first exactly if it opens with one. The induction follows
what is written first. -/
theorem Shape.startsWithMinus_steps (shape : Shape) {steps : List Step}
    (hsteps : shape.steps = .ok steps) (p : Printer) :
    startsWithMinus (p.written steps) = shape.opensWithMinus p.shownName :=
  match shape with
  | .int16 value => by
    cases hsteps
    rw [p.written_write, startsWithMinus_toString]
    rfl
  | .int32 value => by
    cases hsteps
    rw [p.written_write, startsWithMinus_toString]
    rfl
  | .int64 value => by
    cases hsteps
    rw [p.written_write, startsWithMinus_toString]
    rfl
  | .double value => by
    cases hsteps
    rw [p.written_write, Double.startsWithMinus_text]
    rfl
  | .string value => by
    cases hsteps
    rw [p.written_write, startsWithMinus_quoteString]
    rfl
  | .boolean value => by
    cases hsteps
    rw [p.written_write]
    cases value <;> rfl
  | .keyword value => by
    cases hsteps
    rw [p.written_write]
    rfl
  | .function name => by
    cases hsteps
    rw [p.written_function]
    rfl
  | .constant name => by
    cases hsteps
    rw [p.written_write]
    rfl
  | .access a => a.startsWithMinus_steps hsteps p
  | .unary operator operand => by
    obtain ⟨inner, -, hsteps⟩ := exists_of_bind_eq_ok hsteps
    cases hsteps
    obtain ⟨hsome, hminus⟩ := operator.unarySymbol_spec
    exact (p.startsWithMinus_written_cons hsome inner).trans hminus
  | .binary _ left _ => by
    obtain ⟨first, hleft, hsteps⟩ := exists_of_bind_eq_ok hsteps
    obtain ⟨second, -, hsteps⟩ := exists_of_bind_eq_ok hsteps
    cases hsteps
    rw [List.append_assoc]
    exact (p.startsWithMinus_written_append (by decide) (by decide) _ _).trans
      (left.startsWithMinus_steps hleft p)
  | .call function _ => by
    obtain ⟨inner, -, hsteps⟩ := exists_of_bind_eq_ok hsteps
    cases hsteps
    exact (p.startsWithMinus_written_append (by decide) (by decide) [.function function] _).trans
      (congrArg startsWithMinus (p.written_function function))
  | .callValue callee _ _ => by
    obtain ⟨first, hcallee, hsteps⟩ := exists_of_bind_eq_ok hsteps
    obtain ⟨inner, -, hsteps⟩ := exists_of_bind_eq_ok hsteps
    cases hsteps
    rw [List.append_assoc, List.append_assoc]
    exact (p.startsWithMinus_written_append (by decide) (by decide) _ _).trans
      (callee.startsWithMinus_steps hcallee p)
  | .construct callee _ => by
    rw [Shape.steps] at hsteps
    split at hsteps
    · obtain ⟨first, -, hsteps⟩ := exists_of_bind_eq_ok hsteps
      obtain ⟨inner, -, hsteps⟩ := exists_of_bind_eq_ok hsteps
      cases hsteps
      exact p.startsWithMinus_written_cons (by decide) _
    · cases hsteps
  | .chain _ conditions => startsWithMinus_chain conditions hsteps p
  | .routine routine => routine.startsWithMinus_steps hsteps p
  | .struct routine => routine.startsWithMinus_structSteps hsteps p
termination_by structural shape

/-- An access is written with a minus sign first exactly if its owner is, or its name if no owner is
shown. -/
theorem Access.startsWithMinus_steps (a : Access) {steps : List Step}
    (hsteps : a.steps = .ok steps) (p : Printer) :
    startsWithMinus (p.written steps) = a.opensWithMinus p.shownName :=
  match a with
  | ⟨_, _, _, _, _, some name⟩ => by
    cases hsteps
    rw [p.written_write]
    rfl
  | ⟨target, _, owner, indices, _, none⟩ => by
    rw [Access.steps] at hsteps
    rw [Access.opensWithMinus]
    cases hinstance : owner.instance? with
    | none =>
      simp only [hinstance] at hsteps ⊢
      obtain ⟨first, howner, hsteps⟩ := exists_of_bind_eq_ok hsteps
      obtain ⟨before, ⟨⟩, hsteps⟩ := exists_of_bind_eq_ok hsteps
      obtain ⟨after, -, hsteps⟩ := exists_of_bind_eq_ok hsteps
      cases hsteps
      rw [List.append_assoc]
      exact (p.startsWithMinus_written_append (by decide) (by decide) _ _).trans
        (owner.startsWithMinus_steps howner p)
    | some value =>
      simp only [hinstance] at hsteps ⊢
      split at hsteps
      · obtain ⟨before, ⟨⟩, hsteps⟩ := exists_of_bind_eq_ok hsteps
        obtain ⟨after, hafter, hsteps⟩ := exists_of_bind_eq_ok hsteps
        cases hsteps
        rw [if_pos ‹_›]
        exact startsWithMinus_written_indices p target.name hafter
      · obtain ⟨before, ⟨⟩, hsteps⟩ := exists_of_bind_eq_ok hsteps
        obtain ⟨after, -, hsteps⟩ := exists_of_bind_eq_ok hsteps
        cases hsteps
        rw [if_neg ‹_›]
        exact (p.startsWithMinus_written_append (by decide) (by decide) [.write value.text] _).trans
          (congrArg startsWithMinus (p.written_write value.text))
termination_by structural a

/-- A chain begins as its first condition does. -/
theorem startsWithMinus_chain {symbol : String} (es : List Expr) {steps : List Step}
    (hsteps : separatedSteps [.write " ", .write symbol, .write " "] es = .ok steps)
    (p : Printer) :
    startsWithMinus (p.written steps) = firstOpensWithMinus p.shownName es :=
  match es with
  | [] => by
    cases hsteps
    rfl
  | [e] => e.startsWithMinus_steps hsteps p
  | e :: next :: es => by
    obtain ⟨first, hfirst, hsteps⟩ := exists_of_bind_eq_ok hsteps
    obtain ⟨rest, -, hsteps⟩ := exists_of_bind_eq_ok hsteps
    cases hsteps
    rw [List.append_assoc]
    exact (p.startsWithMinus_written_append (by decide) (by decide) _ _).trans
      (e.startsWithMinus_steps hfirst p)
termination_by structural es

end

/-- An expression that gets parentheses begins with one. -/
theorem Expr.opensWithMinus_groupIf (shown : String → String) (condition : Bool) (e : Expr) :
    (e.groupIf condition).opensWithMinus shown = (!condition && e.opensWithMinus shown) := by
  obtain ⟨shape, duplicated, grouped, slot⟩ := e
  cases condition <;> cases grouped <;> rfl

/-- After tidying, the sign of a negation is followed by a second minus sign exactly if the tidied
operand is neither an operation with two operands nor a chain, and its leftmost part begins with a
minus sign. -/
theorem negation_sign_doubled_iff (c : Config) {e operand : Expr} {operator : Instruction}
    (hshape : e.shape = .unary operator operand) (hnegate : operator.opcode = .negate)
    (outer : Scopes) (f : Fragment) :
    ∃ operand' e' f', operand.tidy c (f :: outer) = .ok (operand', f' :: outer) ∧
      e.tidy c (f :: outer) = .ok (e', f' :: outer) ∧
      ∀ steps, e'.steps = .ok steps → ∀ p : Printer, ∃ rest,
        p.written steps = (if e.grouped then "(-" else "-") ++ rest ∧
          (startsWithMinus rest = true ↔
            operand'.strength? = none ∧ operand'.opensWithMinus p.shownName = true) := by
  obtain ⟨shape, duplicated, grouped, slot⟩ := e
  obtain rfl : shape = .unary operator operand := hshape
  obtain ⟨operand', f', hoperand, -⟩ := operand.tidy_passes c outer f
  let tidied := operand'.groupIf operand'.strength?.isSome
  refine ⟨operand', ⟨.unary operator tidied, duplicated, grouped, slot⟩, f', hoperand, ?_, ?_⟩
  · have hshape : (Shape.unary operator operand).tidy c (f :: outer) =
        .ok (.unary operator tidied, f' :: outer) := Tidying.bind_eq hoperand rfl
    exact Tidying.bind_eq rfl (Tidying.bind_eq hshape rfl)
  intro steps hsteps p
  obtain ⟨sign, hsign, hsteps⟩ := exists_of_bind_eq_ok hsteps
  obtain ⟨inner, hinner, hsign⟩ := exists_of_bind_eq_ok hsign
  have hsymbol : operator.unarySymbol = "-" := by
    rw [Instruction.unarySymbol, if_pos hnegate]
  cases hsign
  cases hsteps
  have hopens (q : Printer) (hshown : q.shownName = p.shownName) :
      startsWithMinus (q.written inner) = true ↔
        operand'.strength? = none ∧ operand'.opensWithMinus p.shownName = true := by
    rw [tidied.startsWithMinus_steps hinner q, hshown, Expr.opensWithMinus_groupIf,
      Bool.and_eq_true, Bool.not_eq_true', Option.isSome_eq_false_iff, Option.isNone_iff_eq_none]
  rw [hsymbol]
  cases grouped with
  | false =>
    refine ⟨_, ?_, hopens (p.run [.write "-"]) rfl⟩
    exact (p.written_append [.write "-"] inner).trans
      (congrArg (· ++ _) (p.written_write "-"))
  | true =>
    -- the parenthesis that closes follows the operand and does not change how it begins
    let q := p.run [.write "(", .write "-"]
    have hclosed : startsWithMinus (q.written (inner ++ [.write ")"])) =
        startsWithMinus (q.written inner) :=
      q.startsWithMinus_written_append (by decide) (by decide) inner []
    refine ⟨_, p.written_append [.write "(", .write "-"] (inner ++ [.write ")"]), ?_⟩
    rw [hclosed]
    exact hopens _ rfl

namespace Sample

/-- The negation of an expression. -/
def negation (operand : Expr) : Expr :=
  .ofShape (.unary (.plain .negate) operand)

/-- Code that returns the negation of the negation of `x`. -/
def returnsNegatedTwice : Entry where
  name := "gml_Object_player_Step_0"
  body := [.block ⟨0, [.pushVariable .push ⟨"x", .own⟩ .normal, .plain .negate, .plain .negate,
    .plain .ret]⟩]

/-- Code that returns the negation of `-5`. -/
def returnsNegatedLiteral : Entry where
  name := "gml_Object_player_Step_0"
  body := [.block ⟨0, [.pushImmediate (-5), .plain .negate, .plain .ret]⟩]

end Sample

/-- The negation of a difference: the operand has a level, so it gets parentheses and no second sign
follows. -/
theorem negation_sign_doubled_iff_difference :
    (Sample.negation Sample.difference).shape = .unary (.plain .negate) Sample.difference ∧
      (Instruction.plain .negate).opcode = .negate ∧
      ∃ operand' e' f', Sample.difference.tidy {} [{}] = .ok (operand', [f']) ∧
        (Sample.negation Sample.difference).tidy {} [{}] = .ok (e', [f']) ∧
        ∀ steps, e'.steps = .ok steps → ∀ p : Printer, ∃ rest,
          p.written steps = "-" ++ rest ∧
            (startsWithMinus rest = true ↔
              operand'.strength? = none ∧ operand'.opensWithMinus p.shownName = true) :=
  ⟨rfl, rfl, negation_sign_doubled_iff {} rfl rfl [] {}⟩

/-- The negation of a negative number and the negation of a negation are written with two minus
signs in a row. -/
theorem negation_signs_doubled :
    (∃ steps, (Sample.negation (.ofShape (.int16 (-5)))).tidy {} [{}] =
        .ok (Sample.negation (.ofShape (.int16 (-5))), [{}]) ∧
      (Sample.negation (.ofShape (.int16 (-5)))).steps = .ok steps ∧
      ({} : Printer).written steps = "-" ++ "-5") ∧
      decompile Sample.returnsNegatedLiteral = .ok "return --5;\n" ∧
      decompile Sample.returnsNegatedTwice = .ok "return --x;\n" :=
  ⟨⟨_, rfl, rfl, by decide +kernel⟩, by decide +kernel, by decide +kernel⟩

end GmlDecompiler

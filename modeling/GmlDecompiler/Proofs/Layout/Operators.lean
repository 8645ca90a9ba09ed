import GmlDecompiler.Layout.Source
import GmlDecompiler.Proofs.Layout.Grammar
import GmlDecompiler.Tidy

/-!
# Operators are written unambiguously

An expression of integers, variables and operators is tidied, which adds the parentheses that
its operands need, and written. The tokens written derive the formula of the expression, at the
level of its outermost operator; since the grammar is unambiguous, they derive no other.
-/

namespace GmlDecompiler

open Grammar

/-- The token that a step writes. A blank only separates tokens. -/
def Step.token? : Step → Option String
  | .write text => if text = " " then none else some text
  | _ => none

/-- The tokens that steps write. -/
def tokens (steps : List Step) : List String :=
  steps.filterMap Step.token?

/-- A variable that is no array element. -/
def Access.plain (target : VarRef) (owner : Expr) (regularPush : Bool) : Access where
  target := target
  owner := owner
  regularPush := regularPush

/-- An expression of integers, variables of the instance itself and operators, without
parentheses, and its formula: every instruction is replaced by its symbol. -/
inductive Expr.HasFormula : Expr → Formula → Prop
  | int16 {duplicated : Bool} {slot : SlotType} (value : Int16) :
      HasFormula ⟨.int16 value, duplicated, false, slot⟩ (.atom (toString value.toInt))
  | int32 {duplicated : Bool} {slot : SlotType} (value : Int32) :
      HasFormula ⟨.int32 value, duplicated, false, slot⟩ (.atom (toString value.toInt))
  | int64 {duplicated : Bool} {slot : SlotType} (value : Int64) :
      HasFormula ⟨.int64 value, duplicated, false, slot⟩ (.atom (toString value.toInt))
  | own {duplicated regularPush : Bool} {slot : SlotType} {target : VarRef} {owner : Expr}
      (howner : owner.shape = .keyword .own) (hname : isIdentifier target.name = true)
      (hargument : (Access.plain target owner regularPush).argumentIndex? = none) :
      HasFormula ⟨.access (.plain target owner regularPush), duplicated, false, slot⟩
        (.atom target.name)
  | unary {duplicated : Bool} {slot : SlotType} {i : Instruction} {operand : Expr} {t : Formula}
      (hi : i.opcode.isUnary = true) (hoperand : operand.HasFormula t) :
      HasFormula ⟨.unary i operand, duplicated, false, slot⟩ (.unary i.unarySymbol t)
  | binary {duplicated : Bool} {slot : SlotType} {i : Instruction} {left right : Expr}
      {t u : Formula} (hi : i.IsBinary) (hleft : left.HasFormula t) (hright : right.HasFormula u) :
      HasFormula ⟨.binary i left right, duplicated, false, slot⟩ (.binary i.operator.symbol t u)

/-- A tidied expression that is not in parentheses is written by steps that derive a formula, at
the level of its outermost operator. -/
structure Prints (e : Expr) (steps : List Step) (t : Formula) : Prop where
  ungrouped : e.grouped = false
  written : e.shape.steps = .ok steps
  positive : 0 < e.strength?.getD tightest
  derives : Derives (e.strength?.getD tightest) (tokens steps) t

/-- The tokens of steps in a row. -/
@[simp] theorem tokens_append (first second : List Step) :
    tokens (first ++ second) = tokens first ++ tokens second :=
  List.filterMap_append

/-- An operand in parentheses derives its formula at every level, one without at the levels up
to its own. -/
theorem Prints.groupIf {e : Expr} {steps : List Step} {t : Formula} (he : Prints e steps t)
    {condition : Bool} {n : Nat} (hn : condition = false → n ≤ e.strength?.getD tightest) :
    ∃ steps', (e.groupIf condition).steps = .ok steps' ∧ Derives n (tokens steps') t := by
  obtain ⟨shape, duplicated, grouped, slot⟩ := e
  obtain rfl : grouped = false := he.ungrouped
  refine ⟨parenthesize condition steps, ?_, ?_⟩
  · simp only [Expr.groupIf, Expr.steps, he.written, Bool.false_or, bind, Except.bind, pure_eq_ok]
  · cases condition with
    | false => exact he.derives.lower (hn rfl)
    | true =>
      have hinside : Derives 1 (tokens steps) t := he.derives.lower he.positive
      have htokens : tokens (parenthesize true steps) = "(" :: tokens steps ++ [")"] := by
        rw [parenthesize, if_pos rfl, tokens_append]
        rfl
      rw [htokens]
      exact .group hinside

/-- Without readings the operands of an operator are only grouped. -/
theorem Config.operands_eq {c : Config} (hreadings : c.readings.byVariable = ∅)
    (i : Instruction) (left right : Expr) :
    c.operands i left right = groupOperands i left right := by
  have hbeside (beside e : Expr) : c.readBeside beside e = none := by
    simp [readBeside, hreadings]
  simp [operands, readCompared, hbeside]

/-- An expression that is written as one atom. -/
theorem Prints.atom {e : Expr} {token : String} (hungrouped : e.grouped = false)
    (hwritten : e.shape.steps = .ok [.write token]) (hstrength : e.strength? = none)
    (htoken : IsAtom token) : Prints e [.write token] (.atom token) := by
  refine ⟨hungrouped, hwritten, by simp [hstrength, tightest], ?_⟩
  have htokens : tokens [.write token] = [token] := by
    simp [tokens, Step.token?, htoken.ne " " (by decide)]
  rw [htokens]
  exact .atom htoken

/-- An operator with one operand; an operator below it is put in parentheses. -/
theorem Prints.unary {e : Expr} {steps : List Step} {t : Formula} (he : Prints e steps t)
    {i : Instruction} (hi : i.opcode.isUnary = true) (duplicated : Bool) (slot : SlotType) :
    ∃ steps', Prints ⟨.unary i (e.groupIf e.strength?.isSome), duplicated, false, slot⟩ steps'
      (.unary i.unarySymbol t) := by
  have hsymbol : IsUnary i.unarySymbol := ⟨i, hi, rfl⟩
  have hlevel : e.strength?.isSome = false → tightest ≤ e.strength?.getD tightest := by
    cases e.strength? with
    | none => exact fun _ => Nat.le_refl _
    | some level => simp
  obtain ⟨steps', hsteps, hderives⟩ := he.groupIf hlevel
  refine ⟨.write i.unarySymbol :: steps', rfl, ?_, Nat.succ_pos _, ?_⟩
  · simp only [Shape.steps, hsteps, bind, Except.bind, pure_eq_ok]
  · have htokens : tokens (.write i.unarySymbol :: steps') = i.unarySymbol :: tokens steps' := by
      simp [tokens, Step.token?, hsymbol.ne " " (by decide)]
    rw [htokens]
    exact .unary hsymbol hderives

/-- An operator with two operands, each in parentheses if it does not bind tightly enough. -/
theorem Prints.binary {left right : Expr} {leftSteps rightSteps : List Step} {t u : Formula}
    (hleft : Prints left leftSteps t) (hright : Prints right rightSteps u) {i : Instruction}
    (hi : i.IsBinary) (duplicated : Bool) (slot : SlotType) :
    ∃ steps, Prints ⟨.binary i (Config.groupOperands i left right).1
        (Config.groupOperands i left right).2, duplicated, false, slot⟩ steps
      (.binary i.operator.symbol t u) := by
  let own := i.operator.strength
  have hsymbol : IsBinary i.operator.symbol own := ⟨i, hi, rfl⟩
  have hleftLevel : left.strength?.any (· < own) = false → own ≤ left.strength?.getD tightest := by
    have hlt := hsymbol.level_lt
    cases left.strength? with
    | none => exact fun _ => Nat.le_of_lt hlt
    | some level => simp
  have hrightLevel : right.strength?.any (· ≤ own) = false →
      own + 1 ≤ right.strength?.getD tightest := by
    have hlt := hsymbol.level_lt
    cases right.strength? with
    | none => exact fun _ => hlt
    | some level =>
      intro hungrouped
      have hbelow : own < level := by simpa using hungrouped
      exact hbelow
  obtain ⟨leftSteps', hleftSteps, hleftDerives⟩ := hleft.groupIf hleftLevel
  obtain ⟨rightSteps', hrightSteps, hrightDerives⟩ := hright.groupIf hrightLevel
  refine ⟨leftSteps' ++ [.write " ", .write i.operator.symbol, .write " "] ++ rightSteps', rfl,
    ?_, hsymbol.level_pos, ?_⟩
  · simp only [Config.groupOperands, Shape.steps, own, hleftSteps, hrightSteps, bind, Except.bind,
      pure_eq_ok]
  · have htokens : tokens [.write " ", .write i.operator.symbol, .write " "] =
        [i.operator.symbol] := by
      simp [tokens, Step.token?, hsymbol.ne " " (by decide)]
    rw [tokens_append, tokens_append, htokens, List.append_assoc]
    exact .binary hsymbol (Nat.le_refl _) hleftDerives hrightDerives

/-- Tidying leaves a variable that is no argument as it is. -/
theorem Expr.tidy_plain {c : Config} {target : VarRef} {owner : Expr} {regularPush : Bool}
    (howner : owner.shape = .keyword .own)
    (hargument : (Access.plain target owner regularPush).argumentIndex? = none)
    (duplicated grouped : Bool) (slot : SlotType) (scopes : Scopes) :
    Expr.tidy c ⟨.access (.plain target owner regularPush), duplicated, grouped, slot⟩ scopes =
      .ok (⟨.access (.plain target owner regularPush), duplicated, grouped, slot⟩, scopes) := by
  have hunchanged : owner.tidy c scopes = .ok (owner, scopes) := by
    obtain ⟨shape, ownerDuplicated, ownerGrouped, ownerSlot⟩ := owner
    obtain rfl : shape = .keyword .own := howner
    rfl
  simp only [Access.plain] at hargument
  simp only [Expr.tidy, Shape.substitute?, Access.plain, hargument, Shape.tidy, Access.tidy,
    hunchanged, tidyOptionalExprs, Config.finishAccess, bind, StateT.bind, Except.bind, pure_apply,
    get_apply, Option.bind_none]

/-- Tidying changes no scope, and what it gives is written with the formula it had. -/
theorem Expr.HasFormula.tidy {c : Config} (hreadings : c.readings.byVariable = ∅)
    (scopes : Scopes) {e : Expr} {t : Formula} (he : e.HasFormula t) :
    ∃ e' steps, e.tidy c scopes = .ok (e', scopes) ∧ Prints e' steps t := by
  induction he with
  | int16 value | int32 value | int64 value =>
    exact ⟨_, _, rfl, .atom rfl rfl rfl (.inl ⟨value.toInt, rfl⟩)⟩
  | @own duplicated regularPush slot target owner howner hname hargument =>
    have hwritten : (Shape.access (.plain target owner regularPush)).steps =
        .ok [.write target.name] := by
      simp [Shape.steps, Access.plain, Access.steps, Expr.instance?, howner, Instance.isImplicit,
        indexSteps, bind, Except.bind]
    exact ⟨_, _, tidy_plain howner hargument duplicated false slot scopes,
      .atom rfl hwritten rfl (.inr hname)⟩
  | @unary duplicated slot i operand t hi _ ih =>
    obtain ⟨operand', operandSteps, hoperand, hprints⟩ := ih
    obtain ⟨steps, hsteps⟩ := hprints.unary hi duplicated slot
    refine ⟨_, steps, ?_, hsteps⟩
    simp only [Expr.tidy, Shape.substitute?, Shape.tidy, hoperand, bind, StateT.bind, Except.bind,
      pure_apply, get_apply]
  | @binary duplicated slot i left right t u hi _ _ ihleft ihright =>
    obtain ⟨left', leftSteps, hleft, hprintsLeft⟩ := ihleft
    obtain ⟨right', rightSteps, hright, hprintsRight⟩ := ihright
    obtain ⟨steps, hsteps⟩ := hprintsLeft.binary hprintsRight hi duplicated slot
    refine ⟨_, steps, ?_, hsteps⟩
    simp only [Expr.tidy, Shape.substitute?, Shape.tidy, hleft, hright,
      Config.operands_eq hreadings, bind, StateT.bind, Except.bind, pure_apply, get_apply]

/-- Operators are written unambiguously: the tokens that a tidied expression is written with
derive the formula of the expression and no other. -/
theorem tidied_tokens_derive_iff {c : Config} (hreadings : c.readings.byVariable = ∅)
    (scopes : Scopes) {e : Expr} {t : Formula} (he : e.HasFormula t) :
    ∃ e' steps, e.tidy c scopes = .ok (e', scopes) ∧ e'.steps = .ok steps ∧
      ∀ u, Derives 1 (tokens steps) u ↔ u = t := by
  obtain ⟨e', steps, htidy, hprints⟩ := he.tidy hreadings scopes
  have hwhole : e'.steps = .ok steps := by
    obtain ⟨shape, duplicated, grouped, slot⟩ := e'
    obtain rfl : grouped = false := hprints.ungrouped
    simp only [Expr.steps, hprints.written, parenthesize, bind, Except.bind, pure_eq_ok,
      Bool.false_eq_true, if_false]
  have hderives : Derives 1 (tokens steps) t := hprints.derives.lower hprints.positive
  refine ⟨e', steps, htidy, hwhole, fun u => ⟨fun hu => hu.unique hderives, ?_⟩⟩
  rintro rfl
  exact hderives

namespace Sample

/-- A variable of the instance itself. -/
def own (name : String) : Expr :=
  .ofShape (.access (.plain ⟨name, .own⟩ (.ofShape (.keyword .own)) true))

/-- The expression `div - (2 - -3) * !(div == 0)`, its parentheses not yet added. -/
def difference : Expr :=
  .ofShape (.binary (.plain .subtract) (own "div")
    (.ofShape (.binary (.plain .multiply)
      (.ofShape (.binary (.plain .subtract) (.ofShape (.int16 2)) (.ofShape (.int32 (-3)))))
      (.ofShape (.unary ((Instruction.plain .not).withTypes .boolean .boolean)
        (.ofShape (.binary (.compare .equal .variable .int16) (own "div")
          (.ofShape (.int16 0)))))))))

end Sample

/-- The tokens of the tidied difference derive its formula and no other. -/
theorem tidied_tokens_derive_iff_difference :
    ∃ e' steps, Sample.difference.tidy {} [] = .ok (e', []) ∧ e'.steps = .ok steps ∧
      ∀ u, Derives 1 (tokens steps) u ↔ u = .binary "-" (.atom "div")
        (.binary "*" (.binary "-" (.atom "2") (.atom "-3"))
          (.unary "!" (.binary "==" (.atom "div") (.atom "0")))) := by
  have hown : (Sample.own "div").HasFormula (.atom "div") :=
    .own rfl (by decide) (by decide)
  exact tidied_tokens_derive_iff rfl []
    (.binary (by decide) hown
      (.binary (by decide) (.binary (by decide) (.int16 2) (.int32 (-3)))
        (.unary (by decide) (.binary (by decide) hown (.int16 0)))))

end GmlDecompiler

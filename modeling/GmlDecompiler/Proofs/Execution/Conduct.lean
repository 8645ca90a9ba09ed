import GmlDecompiler.Tree.Basic

/-!
# Runs of statements

What happens when statements run, as far as it depends on their arrangement: which of them are
executed, in what order, and which conditions are tested between them. What an expression computes
is left open. An oracle decides every condition, knowing all that happened before; a loop whose
condition it never decides against is cut off after a number of rounds. -/

namespace GmlDecompiler

/-- Something that happens in a run. -/
inductive Event where
  /-- A statement that contains no others was executed. -/
  | did (s : Stmt)
  /-- The condition of a branch or of a loop was tested. -/
  | tested (condition : Expr) (holds : Bool)

/-- How a run ends. -/
inductive Outcome where
  /-- It came to its end. -/
  | done
  /-- It jumps out of the innermost loop. -/
  | left
  /-- It jumps to the next round of the innermost loop. -/
  | again
  /-- It leaves the routine. -/
  | returned
  /-- A loop made as many rounds as it may. -/
  | cut
  deriving DecidableEq

/-- Decides conditions, knowing what happened before, the latest first. -/
abbrev Oracle := List Event → Expr → Bool

/-- What code does under an oracle, if each loop may make so many rounds: it adds to what happened
before, and ends in some way. -/
abbrev Conduct := Oracle → (bound : Nat) → List Event → List Event × Outcome

namespace Conduct

/-- Nothing. -/
def skip : Conduct := fun _ _ history => (history, .done)

/-- A statement executed, after which the run goes on as the outcome says. -/
def act (s : Stmt) (outcome : Outcome) : Conduct := fun _ _ history => (.did s :: history, outcome)

/-- One run, and if it came to its end another one. -/
def andThen (first second : Conduct) : Conduct := fun oracle bound history =>
  match first oracle bound history with
  | (history, .done) => second oracle bound history
  | (history, outcome) => (history, outcome)

/-- One of two runs, as a condition holds or not. -/
def branch (condition : Expr) (thenPart elsePart : Conduct) : Conduct :=
  fun oracle bound history =>
    let holds := oracle history condition
    (if holds then thenPart else elsePart) oracle bound (.tested condition holds :: history)

/-- At most `count` rounds of a loop. In front of every test, whatever belongs to the condition is
run. -/
def roundsUpTo (oracle : Oracle) (bound : Nat) (before : Conduct) (condition : Expr)
    (body : Conduct) : (count : Nat) → List Event → List Event × Outcome
  | 0, history => (history, .cut)
  | count + 1, history =>
    match before oracle bound history with
    | (history, .done) =>
      let holds := oracle history condition
      let history := .tested condition holds :: history
      if holds then
        match body oracle bound history with
        | (history, .done) | (history, .again) =>
          roundsUpTo oracle bound before condition body count history
        | (history, .left) => (history, .done)
        | (history, outcome) => (history, outcome)
      else (history, .done)
    | (history, outcome) => (history, outcome)

/-- A loop. -/
def rounds (before : Conduct) (condition : Expr) (body : Conduct) : Conduct :=
  fun oracle bound => roundsUpTo oracle bound before condition body bound

/-- A run, and what is run after it in any case. -/
def guarded (body cleanup : Conduct) : Conduct := fun oracle bound history =>
  match body oracle bound history with
  | (history, .cut) => (history, .cut)
  | (history, outcome) =>
    match cleanup oracle bound history with
    | (history, .done) => (history, outcome)
    | (history, other) => (history, other)

/-- What is run if a condition of a chain does not decide it. -/
def unlessDecided (logic : Logic) (condition : Expr) (rest : Conduct) : Conduct :=
  fun oracle bound history =>
    if oracle history condition = (logic == .and) then rest oracle bound history
    else (history, .done)

/-- Doing nothing first does not change what comes after. -/
@[simp] theorem skip_andThen (second : Conduct) : skip.andThen second = second :=
  rfl

end Conduct

mutual

/-- What a statement does. A declaration of local variables does nothing, and the declaration of a
static variable assigns it. -/
def Stmt.conduct : Stmt → Conduct
  | .block block => block.conduct
  | .eval value => .act (.eval value) .done
  | .assign target value => .act (.assign target value) .done
  | .static target value => .act (.assign target value) .done
  | .ret value => .act (.ret value) .returned
  | .exit => .act .exit .returned
  | .leave => .act .leave .left
  | .again => .act .again .again
  | .branch condition thenPart elsePart =>
    .branch condition thenPart.conduct (optionalConduct elsePart)
  | .loop condition body => .rounds .skip condition body.conduct
  | .guarded body cleanup => .guarded body.conduct (optionalConduct cleanup)
  | .locals _ => .skip
  | .routine routine => .act (.routine routine) .done
  | .enum _ => .skip

/-- What a block does. -/
def Block.conduct : Block → Conduct
  | ⟨statements, _⟩ => stmtsConduct statements

/-- What a block does, if there is one. -/
def optionalConduct : Option Block → Conduct
  | none => .skip
  | some block => block.conduct

/-- What statements do in a row. -/
def stmtsConduct : List Stmt → Conduct
  | [] => .skip
  | s :: ss => s.conduct.andThen (stmtsConduct ss)

end

end GmlDecompiler

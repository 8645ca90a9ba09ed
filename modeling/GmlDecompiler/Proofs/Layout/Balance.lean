import GmlDecompiler.Layout.Source
import GmlDecompiler.Proofs.Computations

/-!
# Balanced printing

Writing steps only adds to a text, and what it adds does not depend on the text before. The steps
of a tree are balanced as well: what they open they close, in the same part of the tree. So after a
statement or an expression the indentation and the scopes are those of before, and a closing brace
is written only inside a block that the same steps have opened.
-/

namespace GmlDecompiler

namespace Printer

/-- The printer with a text before its own. -/
def after (text : String) (p : Printer) : Printer :=
  { p with text := text ++ p.text }

/-- The text that steps add. -/
def written (p : Printer) (steps : List Step) : String :=
  ({ p with text := "" }.run steps).text

/-- Text in front of what parts are appended to stays in front. The indentation of a line is written
so. -/
theorem foldl_append_after (text own : String) (parts : List String) :
    parts.foldl (· ++ ·) (text ++ own) = text ++ parts.foldl (· ++ ·) own := by
  induction parts generalizing own with
  | nil => rfl
  | cons part parts ih => rw [List.foldl_cons, List.foldl_cons, String.append_assoc, ih]

variable (text : String) (p : Printer)

/-- Writing text does not look at the text before. -/
theorem after_write (more : String) : (p.after text).write more = (p.write more).after text := by
  simp only [write, after, String.append_assoc]

/-- Ending a line does not look at the text before. -/
theorem after_endLine : (p.after text).endLine = p.endLine.after text := by
  simp only [endLine, after, String.append_assoc]

/-- Starting a line looks at the indentation and not at the text before. -/
theorem after_startLine : (p.after text).startLine = p.startLine.after text := by
  simp only [startLine, after, foldl_append_after]

/-- Going on before a brace depends on the settings only. -/
theorem after_breakBeforeBrace :
    (p.after text).breakBeforeBrace = p.breakBeforeBrace.after text := by
  unfold breakBeforeBrace
  split
  · rw [after_write, if_pos ‹_›]
  · rw [after_endLine, after_startLine, if_neg ‹_›]

/-- Opening a block on the same line does not look at the text before. -/
theorem after_openInline : (p.after text).openInline = p.openInline.after text := by
  simp only [openInline, after_write, after_endLine]
  rfl

/-- Opening a block does not look at the text before, in both styles. -/
theorem after_openBlock : (p.after text).openBlock = p.openBlock.after text := by
  unfold openBlock
  split
  · rw [after_breakBeforeBrace, after_openInline, if_pos ‹_›]
  · rw [after_openInline, if_neg ‹_›]

/-- What a step does, does not depend on the text before. -/
theorem after_step (s : Step) : (p.after text).step s = (p.step s).after text := by
  cases s with
  | write more => exact p.after_write text more
  | function name => exact p.after_write text _
  | startLine => exact p.after_startLine text
  | endLine => exact p.after_endLine text
  | blankLine => simp only [step, blankLine, after, String.append_assoc]
  | openBlock => exact p.after_openBlock text
  | openInline => exact p.after_openInline text
  | closeBlock =>
    have hstart := after_startLine text { p with level := p.level - 1 }
    simp only [step, closeBlock, ← after_write, ← hstart]
    rfl
  | continueAfter keyword => rw [step, after_breakBeforeBrace, after_write]; rfl
  | enter fragment => rfl
  | leave => rfl

/-- What steps do, does not depend on the text before. -/
theorem after_run (steps : List Step) : (p.after text).run steps = (p.run steps).after text := by
  induction steps generalizing p with
  | nil => rfl
  | cons s steps ih => rw [run_cons, run_cons, after_step, ih]

/-- A printer is one without text, with its own text put before. -/
theorem after_self : after p.text { p with text := "" } = p := by
  simp only [after, String.append_empty]

/-- Writing steps only adds to the text. -/
theorem text_run (steps : List Step) : (p.run steps).text = p.text ++ p.written steps := by
  calc (p.run steps).text
    _ = ((after p.text { p with text := "" }).run steps).text := by rw [after_self]
    _ = p.text ++ p.written steps := by rw [after_run]; rfl

/-- Steps in two parts add the texts of both. -/
theorem written_append (first second : List Step) :
    p.written (first ++ second) = p.written first ++ (p.run first).written second := by
  let q : Printer := ({ p with text := "" } : Printer).run first
  have hrun : p.run first = q.after p.text := by
    rw [← after_run, after_self]
  rw [hrun]
  calc p.written (first ++ second)
    _ = (q.run second).text := by rw [written, run_append]
    _ = p.written first ++ (q.after p.text).written second := q.text_run second

/-- The text before is the beginning of the text after. -/
theorem text_prefix_run (steps : List Step) :
    p.text.toList <+: (p.run steps).text.toList := by
  rw [p.text_run, String.toList_append]
  exact List.prefix_append _ _

/-- Writing steps leaves the indentation and the scopes as they were. It only adds to the text, and
each closing brace takes back the indentation of a block that the same steps have opened. -/
structure Restores (p : Printer) (steps : List Step) : Prop where
  level : (p.run steps).level = p.level
  scopes : (p.run steps).scopes = p.scopes
  text : p.text.toList <+: (p.run steps).text.toList
  closes : ∀ {before after : List Step}, steps = before ++ .closeBlock :: after →
    p.level < (p.run before).level

end Printer

/-- The step neither opens nor closes anything. -/
def Step.isLevel : Step → Bool
  | .write _ | .function _ | .startLine | .endLine | .blankLine | .continueAfter _ => true
  | .openBlock | .openInline | .closeBlock | .enter _ | .leave => false

/-- The step opens a block. -/
def Step.opensBlock : Step → Bool
  | .openBlock | .openInline => true
  | .write _ | .function _ | .startLine | .endLine | .blankLine | .closeBlock | .continueAfter _
  | .enter _ | .leave => false

namespace Printer

variable {p : Printer}

/-- Going on before a brace leaves the indentation and the scopes. -/
theorem breakBeforeBrace_level :
    p.breakBeforeBrace.level = p.level ∧ p.breakBeforeBrace.scopes = p.scopes := by
  unfold breakBeforeBrace
  split <;> exact ⟨rfl, rfl⟩

/-- A step that neither opens nor closes anything leaves the indentation and the scopes. -/
theorem step_of_isLevel {s : Step} (hlevel : s.isLevel = true) :
    (p.step s).level = p.level ∧ (p.step s).scopes = p.scopes := by
  cases s with
  | write | function | startLine | endLine | blankLine => exact ⟨rfl, rfl⟩
  | continueAfter keyword => exact p.breakBeforeBrace_level
  | openBlock | openInline | closeBlock | enter | leave => cases hlevel

/-- A step that opens a block indents by one more, in both styles. -/
theorem step_of_opensBlock {s : Step} (hopens : s.opensBlock = true) :
    (p.step s).level = p.level + 1 ∧ (p.step s).scopes = p.scopes := by
  cases s with
  | openBlock =>
    rw [step, openBlock]
    split
    · obtain ⟨hlevel, hscopes⟩ := p.breakBeforeBrace_level
      exact ⟨congrArg (· + 1) hlevel, hscopes⟩
    · exact ⟨rfl, rfl⟩
  | openInline => exact ⟨rfl, rfl⟩
  | write | function | startLine | endLine | blankLine | closeBlock | continueAfter | enter
  | leave => cases hopens

end Printer

/-- Wherever the steps are written, they leave the indentation and the scopes as they were. -/
def Balanced (steps : List Step) : Prop :=
  ∀ p : Printer, p.Restores steps

/-- A place in two lists in a row is a place in one of them. -/
theorem exists_append_cons {α : Type} {a : α} {first second before after : List α}
    (hplace : first ++ second = before ++ a :: after) :
    (∃ after', first = before ++ a :: after') ∨
      ∃ before', before = first ++ before' ∧ second = before' ++ a :: after := by
  rcases List.append_eq_append_iff.mp hplace with ⟨before', hbefore, hsecond⟩ | ⟨rest, hfirst, hrest⟩
  · exact .inr ⟨before', hbefore, hsecond⟩
  · cases rest with
    | nil =>
      rw [List.append_nil] at hfirst
      exact .inr ⟨[], by rw [hfirst, List.append_nil], hrest.symm⟩
    | cons b rest =>
      obtain ⟨rfl, -⟩ := List.cons.inj hrest
      exact .inl ⟨rest, hfirst⟩

namespace Balanced

variable {first second inner : List Step}

/-- No steps are balanced. -/
theorem nil : Balanced [] := fun p =>
  ⟨rfl, rfl, p.text_prefix_run [], fun hplace => by simp at hplace⟩

/-- Balanced steps in a row are balanced: a closing brace in the second part has its block there as
well. -/
theorem append (hfirst : Balanced first) (hsecond : Balanced second) :
    Balanced (first ++ second) := fun p => by
  have hone := hfirst p
  have htwo := hsecond (p.run first)
  refine ⟨?_, ?_, p.text_prefix_run _, fun {before after} hplace => ?_⟩
  · rw [Printer.run_append, htwo.level, hone.level]
  · rw [Printer.run_append, htwo.scopes, hone.scopes]
  · rcases exists_append_cons hplace with ⟨after', hinside⟩ | ⟨before', rfl, hinside⟩
    · exact hone.closes hinside
    · rw [Printer.run_append, ← hone.level]
      exact htwo.closes hinside

/-- A step that neither opens nor closes anything is balanced. -/
theorem single {s : Step} (hlevel : s.isLevel = true) : Balanced [s] := fun p => by
  obtain ⟨hsame, hscopes⟩ := p.step_of_isLevel hlevel
  refine ⟨hsame, hscopes, p.text_prefix_run _, fun {before after} hplace => ?_⟩
  rcases List.singleton_eq_append_iff.mp hplace with ⟨-, hclose⟩ | ⟨-, hclose⟩
  · obtain ⟨rfl, -⟩ := List.cons.inj hclose
    cases hlevel
  · cases hclose

/-- A step that neither opens nor closes anything may come first. -/
theorem cons {s : Step} (hlevel : s.isLevel = true) (hsecond : Balanced second) :
    Balanced (s :: second) :=
  (single hlevel).append hsecond

/-- What is balanced may stand in a block. -/
theorem block {opening : Step} (hopens : opening.opensBlock = true) (hinner : Balanced inner) :
    Balanced (opening :: inner ++ [.closeBlock]) := fun p => by
  obtain ⟨hlevel, hscopes⟩ := p.step_of_opensBlock hopens
  have hinside := hinner (p.step opening)
  refine ⟨?_, ?_, p.text_prefix_run _, fun {before after} hplace => ?_⟩
  · rw [Printer.run_append, Printer.run_cons]
    show ((p.step opening).run inner).level - 1 = p.level
    rw [hinside.level, hlevel, Nat.add_sub_cancel]
  · rw [Printer.run_append, Printer.run_cons]
    exact hinside.scopes.trans hscopes
  · cases before with
    | nil =>
      obtain ⟨rfl, -⟩ := List.cons.inj hplace
      cases hopens
    | cons s before =>
      obtain ⟨rfl, hrest⟩ := List.cons.inj hplace
      rw [Printer.run_cons]
      rcases exists_append_cons hrest with ⟨after', hcloses⟩ | ⟨before', rfl, hlast⟩
      · have hdeeper := hinside.closes hcloses
        omega
      · rcases List.singleton_eq_append_iff.mp hlast with ⟨rfl, -⟩ | ⟨-, hnone⟩
        · rw [List.append_nil, hinside.level, hlevel]
          exact Nat.lt_succ_self _
        · cases hnone

/-- What is balanced may stand in a scope of its own. -/
theorem scope (fragment : Fragment) (hinner : Balanced inner) :
    Balanced (.enter fragment :: inner ++ [.leave]) := fun p => by
  have hinside := hinner (p.step (.enter fragment))
  refine ⟨?_, ?_, p.text_prefix_run _, fun {before after} hplace => ?_⟩
  · rw [Printer.run_append, Printer.run_cons]
    exact hinside.level
  · rw [Printer.run_append, Printer.run_cons]
    exact congrArg (List.drop 1) hinside.scopes
  · cases before with
    | nil => cases (List.cons.inj hplace).1
    | cons s before =>
      obtain ⟨rfl, hrest⟩ := List.cons.inj hplace
      rcases exists_append_cons hrest with ⟨after', hcloses⟩ | ⟨before', -, hlast⟩
      · exact hinside.closes hcloses
      · rcases List.singleton_eq_append_iff.mp hlast with ⟨-, hclose⟩ | ⟨-, hnone⟩
        · cases (List.cons.inj hclose).1
        · cases hnone

end Balanced

/-- Parentheses do not change the balance. -/
theorem Balanced.parenthesize {steps : List Step} (condition : Bool) (hsteps : Balanced steps) :
    Balanced (GmlDecompiler.parenthesize condition steps) := by
  unfold GmlDecompiler.parenthesize
  split
  · exact .cons rfl (hsteps.append (.single rfl))
  · exact hsteps

/-- A text, if there is one, is balanced. -/
abbrev BalancedIfAny (steps : Except Fault (List Step)) : Prop :=
  Ends Balanced (fun _ => True) steps

/-- The heading of a routine is made of words. -/
theorem balanced_heading (name : Option String) : Balanced (Routine.heading name) := by
  cases name with
  | none => exact .single rfl
  | some name => exact .cons rfl (.cons rfl (.single rfl))

/-- The members of an enum are written balanced, one a line. -/
theorem EnumDecl.balanced_memberSteps (expected : Int64) (members : List EnumMember) :
    Balanced (EnumDecl.memberSteps expected members) := by
  induction members generalizing expected with
  | nil => exact .nil
  | cons m rest ih =>
    unfold EnumDecl.memberSteps
    refine .append ?_ (ih _)
    refine .append ?_ (.single rfl)
    refine .append ?_ ?_
    · refine .append (.cons rfl (.single rfl)) ?_
      split
      · exact .nil
      · exact .cons rfl (.single rfl)
    · split
      · exact .nil
      · exact .single rfl

/-- An enum declaration is written balanced: its braces stand around its members. -/
theorem EnumDecl.balanced_steps (e : EnumDecl) : Balanced e.steps := by
  have hmembers := EnumDecl.balanced_memberSteps 0 e.definition.sorted
  have hblock : Balanced (.openBlock :: EnumDecl.memberSteps 0 e.definition.sorted
      ++ [.closeBlock]) := .block rfl hmembers
  exact .cons rfl (.cons rfl hblock)

/-- Parameters are written balanced if the default values are. -/
theorem balanced_parameterSteps {defaults : List (Nat × Except Fault (List Step))}
    (hdefaults : ∀ index value, defaults.lookup index = some value → BalancedIfAny value)
    (index : Nat) (names : List String) :
    BalancedIfAny (parameterSteps defaults index names) := by
  induction names generalizing index with
  | nil => exact .ok .nil
  | cons name rest ih =>
    rw [parameterSteps]
    have hcomma : Balanced (if rest.isEmpty then [] else [.write ", "]) := by
      split
      · exact .nil
      · exact .single rfl
    have hend {value : List Step} (hvalue : Balanced value) :
        BalancedIfAny (parameterSteps defaults (index + 1) rest >>= fun steps =>
          .ok (.write name :: value ++ (if rest.isEmpty then [] else [.write ", "]) ++ steps)) := by
      refine (ih (index + 1)).bind fun steps hsteps => ?_
      have hparameter : Balanced (.write name :: value) := .cons rfl hvalue
      exact .ok ((hparameter.append hcomma).append hsteps)
    cases hlookup : defaults.lookup index with
    | none => exact hend .nil
    | some value =>
      refine (hdefaults index value hlookup).bind fun steps hsteps => ?_
      exact hend (.cons rfl hsteps)

mutual

/-- An expression is written balanced, in parentheses or without. -/
theorem Expr.balanced (e : Expr) : BalancedIfAny e.steps := by
  match e with
  | ⟨shape, _, grouped, _⟩ =>
    refine shape.balanced.bind fun steps hsteps => ?_
    exact .ok (hsteps.parenthesize grouped)
termination_by structural e

/-- A shape is written balanced: words and parentheses neither open nor close a block, and the parts
are balanced. -/
theorem Shape.balanced (shape : Shape) : BalancedIfAny shape.steps := by
  have hseparator : Balanced [.write ", "] := .single rfl
  match shape with
  | .int16 _ | .int32 _ | .int64 _ | .double _ | .string _ | .boolean _ | .keyword _
  | .function _ | .constant _ => exact .ok (.single rfl)
  | .access a => exact a.balanced
  | .unary operator operand =>
    refine operand.balanced.bind fun steps hsteps => ?_
    exact .ok (.cons rfl hsteps)
  | .binary operator left right =>
    refine left.balanced.bind fun leftSteps hleft => ?_
    refine right.balanced.bind fun rightSteps hright => ?_
    have hsymbol : Balanced [.write " ", .write operator.operator.symbol, .write " "] :=
      .cons rfl (.cons rfl (.single rfl))
    have hopened := hleft.append hsymbol
    exact .ok (hopened.append hright)
  | .call function arguments =>
    refine (balanced_separatedSteps hseparator arguments).bind fun steps hsteps => ?_
    have hopening : Balanced [.function function, .write "("] := .cons rfl (.single rfl)
    have hopened := hopening.append hsteps
    exact .ok (hopened.append (.single rfl))
  | .callValue callee _ arguments =>
    refine callee.balanced.bind fun calleeSteps hcallee => ?_
    refine (balanced_separatedSteps hseparator arguments).bind fun steps hsteps => ?_
    have hopening : Balanced (calleeSteps ++ [.write "("]) := hcallee.append (.single rfl)
    have hopened := hopening.append hsteps
    exact .ok (hopened.append (.single rfl))
  | .construct callee arguments =>
    rw [Shape.steps]
    split
    · refine callee.balanced.bind fun calleeSteps hcallee => ?_
      refine (balanced_separatedSteps hseparator arguments).bind fun steps hsteps => ?_
      have hnew : Balanced (.write "new " :: calleeSteps) := .cons rfl hcallee
      have hopening : Balanced (.write "new " :: calleeSteps ++ [.write "("]) :=
        hnew.append (.single rfl)
      have hopened := hopening.append hsteps
      exact .ok (hopened.append (.single rfl))
    · exact .error trivial
  | .chain logic conditions =>
    have hsymbol : Balanced [.write " ", .write logic.operator.symbol, .write " "] :=
      .cons rfl (.cons rfl (.single rfl))
    exact balanced_separatedSteps hsymbol conditions
  | .routine routine => exact routine.balanced
  | .struct routine => exact routine.balanced_struct
termination_by structural shape

/-- An access is written balanced: its owner, if it is shown, its name and its indices. -/
theorem Access.balanced (a : Access) : BalancedIfAny a.steps := by
  match a with
  | ⟨_, _, _, _, _, some _⟩ => exact .ok (.single rfl)
  | ⟨target, _, owner, indices, _, none⟩ =>
    -- the name and the indices come last, whatever is written of the owner
    have hend {before : List Step} (hbefore : Balanced before) :
        BalancedIfAny (indexSteps indices >>= fun after =>
          .ok (before ++ .write target.name :: after)) := by
      refine (balanced_indexSteps indices).bind fun after hafter => ?_
      have hname : Balanced (.write target.name :: after) := .cons rfl hafter
      exact .ok (hbefore.append hname)
    rw [Access.steps]
    cases owner.instance? with
    | none =>
      refine owner.balanced.bind fun ownerSteps howner => ?_
      exact hend (howner.append (.single rfl))
    | some value =>
      cases himplicit : value.isImplicit with
      | true =>
        simp only [himplicit]
        exact hend .nil
      | false =>
        simp only [himplicit]
        exact hend (.cons rfl (.single rfl))
termination_by structural a

/-- Array indices are written balanced, in brackets. -/
theorem balanced_indexSteps (indices : Option (List Expr)) :
    BalancedIfAny (indexSteps indices) := by
  match indices with
  | none => exact .ok .nil
  | some es =>
    have hseparator : Balanced [.write ", "] := .single rfl
    refine (balanced_separatedSteps hseparator es).bind fun steps hsteps => ?_
    have hopened : Balanced (.write "[" :: steps) := .cons rfl hsteps
    exact .ok (hopened.append (.single rfl))
termination_by structural indices

/-- Expressions with something balanced between them are written balanced. -/
theorem balanced_separatedSteps {separator : List Step} (hseparator : Balanced separator)
    (es : List Expr) : BalancedIfAny (separatedSteps separator es) := by
  match es with
  | [] => exact .ok .nil
  | [e] => exact e.balanced
  | e :: next :: es =>
    refine e.balanced.bind fun first hfirst => ?_
    refine (balanced_separatedSteps hseparator (next :: es)).bind fun rest hrest => ?_
    have hseparated := hfirst.append hseparator
    exact .ok (hseparated.append hrest)
termination_by structural es

/-- A statement is written balanced. -/
theorem Stmt.balanced (s : Stmt) : BalancedIfAny s.steps := by
  match s with
  | .block block => exact block.balanced
  | .eval value => exact value.balanced
  | .assign target value =>
    refine target.balanced.bind fun targetSteps htarget => ?_
    refine value.balanced.bind fun valueSteps hvalue => ?_
    have hassigned : Balanced (.write " = " :: valueSteps) := .cons rfl hvalue
    exact .ok (htarget.append hassigned)
  | .static target value =>
    refine target.balanced.bind fun targetSteps htarget => ?_
    refine value.balanced.bind fun valueSteps hvalue => ?_
    have hdeclared : Balanced (.write "static " :: targetSteps) := .cons rfl htarget
    have hassigned : Balanced (.write " = " :: valueSteps) := .cons rfl hvalue
    exact .ok (hdeclared.append hassigned)
  | .ret value =>
    refine value.balanced.bind fun steps hsteps => ?_
    exact .ok (.cons rfl hsteps)
  | .exit | .leave | .again => exact .ok (.single rfl)
  | .branch condition thenPart elsePart =>
    refine condition.balanced.bind fun conditionSteps hcondition => ?_
    refine thenPart.balanced.bind fun thenSteps hthen => ?_
    refine (balanced_continuedSteps "else" elsePart).bind fun elseSteps helse => ?_
    have hheading : Balanced (.write "if (" :: conditionSteps) := .cons rfl hcondition
    have hbody : Balanced (.write ")" :: thenSteps) := .cons rfl hthen
    have hbranch := hheading.append hbody
    exact .ok (hbranch.append helse)
  | .loop condition body =>
    refine condition.balanced.bind fun conditionSteps hcondition => ?_
    refine body.balanced.bind fun bodySteps hbody => ?_
    have hheading : Balanced (.write "while (" :: conditionSteps) := .cons rfl hcondition
    have hrepeated : Balanced (.write ")" :: bodySteps) := .cons rfl hbody
    exact .ok (hheading.append hrepeated)
  | .guarded body cleanup =>
    refine body.balanced.bind fun bodySteps hbody => ?_
    refine (balanced_continuedSteps "finally" cleanup).bind fun cleanupSteps hcleanup => ?_
    have hguarded : Balanced (.write "try" :: bodySteps) := .cons rfl hbody
    exact .ok (hguarded.append hcleanup)
  | .locals _ => exact .ok (.cons rfl (.single rfl))
  | .routine routine => exact routine.balanced
  | .enum declaration => exact .ok declaration.balanced_steps
termination_by structural s

/-- A block that goes on after another is written balanced, with its keyword. -/
theorem balanced_continuedSteps (keyword : String) (block : Option Block) :
    BalancedIfAny (continuedSteps keyword block) := by
  match block with
  | none => exact .ok .nil
  | some block =>
    refine block.balanced.bind fun steps hsteps => ?_
    exact .ok (.cons rfl hsteps)
termination_by structural block

/-- A block is written balanced: its own braces stand around balanced lines. -/
theorem Block.balanced (block : Block) : BalancedIfAny block.steps := by
  match block with
  | ⟨statements, braced⟩ =>
    refine (balanced_lineSteps false statements).bind fun steps hsteps => ?_
    cases braced with
    | true => exact .ok (.block rfl hsteps)
    | false => exact .ok hsteps
termination_by structural block

/-- Statements are written balanced, each on a line of its own. -/
theorem balanced_lineSteps (blankDue : Bool) (ss : List Stmt) :
    BalancedIfAny (lineSteps blankDue ss) := by
  match ss with
  | [] => exact .ok .nil
  | s :: rest =>
    have hblank : Balanced (if blankDue then [.blankLine] else []) := by
      cases blankDue
      · exact .nil
      · exact .single rfl
    have hsemicolon : Balanced (if s.hasSemicolon then [.write ";"] else []) := by
      cases s.hasSemicolon
      · exact .nil
      · exact .single rfl
    refine s.balanced.bind fun steps hsteps => ?_
    refine (balanced_lineSteps _ rest).bind fun restSteps hrest => ?_
    have hstarted : Balanced (.startLine :: steps) := .cons rfl hsteps
    have hline := (hblank.append hstarted).append hsemicolon
    have hlater : Balanced (.endLine :: restSteps) := .cons rfl hrest
    exact .ok (hline.append hlater)
termination_by structural ss

/-- A routine is written balanced: its text between the heading and the end is in its scope. -/
theorem Routine.balanced (r : Routine) : BalancedIfAny r.steps := by
  match r with
  | ⟨name, isConstructor, body, fragment, defaults, parameters, _, _⟩ =>
    have hword : Balanced (if isConstructor then [.write " constructor"] else []) := by
      cases isConstructor
      · exact .nil
      · exact .single rfl
    have hparameters := balanced_parameterSteps (balanced_defaultSteps defaults) 0 parameters
    rw [Routine.steps]
    refine hparameters.bind fun first hfirst => ?_
    refine fragment.balanced_parentCallSteps.bind fun second hsecond => ?_
    refine body.balanced.bind fun third hthird => .ok ?_
    have hparent : Balanced (.write ")" :: second) := .cons rfl hsecond
    have hinner := ((hfirst.append hparent).append hword).append hthird
    have hroutine := (balanced_heading name).append (hinner.scope fragment)
    simpa using hroutine
termination_by structural r

/-- Each default value is written balanced. -/
theorem balanced_defaultSteps (defaults : List (Nat × Expr)) (index : Nat)
    (value : Except Fault (List Step)) (hvalue : (defaultSteps defaults).lookup index = some value) :
    BalancedIfAny value := by
  match defaults with
  | [] => cases hvalue
  | (i, e) :: rest =>
    rw [defaultSteps, List.lookup_cons] at hvalue
    split at hvalue
    · cases hvalue
      exact e.balanced
    · exact balanced_defaultSteps rest index value hvalue
termination_by structural defaults

/-- The call of the parent constructor is written balanced. -/
theorem Fragment.balanced_parentCallSteps (f : Fragment) : BalancedIfAny f.parentCallSteps := by
  match f with
  | ⟨_, _, _, _, _, _, _, _, _, _, _, _, none⟩ => exact .ok .nil
  | ⟨_, _, _, _, _, _, _, _, _, _, _, _, some call⟩ =>
    refine call.balanced.bind fun steps hsteps => ?_
    exact .ok (.cons rfl hsteps)
termination_by structural f

/-- A struct literal is written balanced, as its body is. -/
theorem Routine.balanced_struct (r : Routine) : BalancedIfAny r.structSteps := by
  match r with
  | ⟨_, _, body, _, _, _, _, _⟩ => exact body.balanced_struct
termination_by structural r

/-- The body of a struct literal is written balanced: its braces stand around balanced members. -/
theorem Block.balanced_struct (block : Block) : BalancedIfAny block.structSteps := by
  match block with
  | ⟨statements, braced⟩ =>
    rw [Block.structSteps]
    split
    · exact .error trivial
    · split
      · exact .ok (.single rfl)
      · refine (balanced_memberSteps statements).bind fun members hmembers => ?_
        exact .ok (.block rfl hmembers)
termination_by structural block

/-- The members of a struct literal are written balanced; what is no member is not written. -/
theorem balanced_memberSteps (ss : List Stmt) : BalancedIfAny (memberSteps ss) := by
  match ss with
  | [] => exact .ok .nil
  | .assign target value :: rest =>
    have hcomma : Balanced (if rest.any Stmt.isMember then [.write ","] else []) := by
      cases rest.any Stmt.isMember
      · exact .nil
      · exact .single rfl
    rw [memberSteps]
    cases target.access? with
    | none => exact .error trivial
    | some a =>
      refine value.balanced.bind fun valueSteps hvalue => ?_
      refine (balanced_memberSteps rest).bind fun restSteps hrest => ?_
      have hname : Balanced [.startLine, .write a.target.name, .write ": "] :=
        .cons rfl (.cons rfl (.single rfl))
      have hmember := (hname.append hvalue).append hcomma
      have hlater : Balanced (.endLine :: restSteps) := .cons rfl hrest
      exact .ok (hmember.append hlater)
  | .block _ :: rest | .eval _ :: rest | .static _ _ :: rest | .ret _ :: rest | .exit :: rest
  | .leave :: rest | .again :: rest | .branch _ _ _ :: rest | .loop _ _ :: rest
  | .guarded _ _ :: rest | .locals _ :: rest | .routine _ :: rest | .enum _ :: rest =>
    exact balanced_memberSteps rest
termination_by structural ss

end

/-- A part of a tree that is written as a whole. -/
inductive Phrase where
  /-- A statement, without the line it stands on. -/
  | statement (s : Stmt)
  /-- An expression. -/
  | expression (e : Expr)
  /-- A block, with its braces or without. -/
  | block (b : Block)
  /-- A function or a constructor. -/
  | function (r : Routine)
  /-- A struct literal. -/
  | struct (r : Routine)
  /-- An enum declaration. -/
  | enum (e : EnumDecl)

/-- The steps of a part of a tree. -/
def Phrase.steps : Phrase → Except Fault (List Step)
  | .statement s => s.steps
  | .expression e => e.steps
  | .block b => b.steps
  | .function r => r.steps
  | .struct r => r.structSteps
  | .enum e => .ok e.steps

/-- Each part of a tree that is written as a whole is written balanced. -/
theorem Phrase.balanced (part : Phrase) : BalancedIfAny part.steps := by
  cases part with
  | statement s => exact s.balanced
  | expression e => exact e.balanced
  | block b => exact b.balanced
  | function r => exact r.balanced
  | struct r => exact r.balanced_struct
  | enum e => exact .ok e.balanced_steps

/-- A part of a tree that has a text can be written anywhere: it adds to the text, leaves the
indentation and the scopes as they were, and closes only blocks that it has opened. -/
theorem phrase_restores_printer (part : Phrase) {steps : List Step}
    (htext : part.steps = .ok steps) (p : Printer) : p.Restores steps := by
  have hbalanced := part.balanced
  rw [htext] at hbalanced
  cases hbalanced with
  | ok hsteps => exact hsteps p

namespace Sample

/-- The struct literal with `a` as its member `first`. -/
def firstMember : Routine where
  body := { statements := [.assign
    (.ofShape (.access { target := ⟨"first", .own⟩, owner := .ofShape (.keyword .own) }))
    (.ofShape (.constant "a"))] }
  fragment := {}

/-- A function with a branch, whose first part has a struct literal in it. -/
def nestedBraces : Stmt :=
  .routine {
    name := some "choose"
    body := { statements := [.branch (.ofShape (.constant "a"))
      { statements := [.ret (.ofShape (.struct firstMember))] } (some { statements := [.exit] })] }
    fragment := {} }

end Sample

/-- Braces inside braces are closed where they were opened, at the lowest level of indentation. -/
theorem phrase_restores_printer_nested :
    ∃ steps, (Phrase.statement Sample.nestedBraces).steps = .ok steps ∧
      ({ level := 0 } : Printer).Restores steps :=
  ⟨_, rfl, phrase_restores_printer (.statement Sample.nestedBraces) rfl _⟩

end GmlDecompiler

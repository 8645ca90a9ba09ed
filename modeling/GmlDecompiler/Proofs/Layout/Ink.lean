import GmlDecompiler.Layout.Step

/-!
# Visible text

Spaces, tabs and line ends are layout; the other characters of a text are visible. Which visible
characters a list of steps writes does not depend on the settings, nor on where lines end, as long
as lines are indented by blanks only.
-/

namespace GmlDecompiler

/-- The character is a space, a tab or the end of a line. -/
def isBlankChar (c : Char) : Bool :=
  c == ' ' || c == '\t' || c == '\n'

/-- The visible characters of a text. -/
def visible (text : String) : List Char :=
  text.toList.filter fun c => !isBlankChar c

/-- What is visible of two texts in a row. -/
@[simp] theorem visible_append (first second : String) :
    visible (first ++ second) = visible first ++ visible second := by
  simp only [visible, String.toList_append, List.filter_append]

/-- A text of spaces and tabs has no visible characters. -/
theorem visible_eq_nil {text : String} (hblank : ∀ c ∈ text.toList, c = ' ' ∨ c = '\t') :
    visible text = [] := by
  refine List.filter_eq_nil_iff.mpr fun c hc => ?_
  rcases hblank c hc with rfl | rfl
  · decide
  · decide

/-- The name that a function is shown under in scopes that declare routines. -/
def FunctionNames.shown (names : FunctionNames) (scopes : List (Table String String))
    (function : String) : String :=
  (scopes.head?.bind (·[function]?)).getD ((names.nameOf? function).getD function)

namespace Step

/-- The visible characters that a step writes. -/
def ink (names : FunctionNames) (scopes : List (Table String String)) : Step → List Char
  | .write text => visible text
  | .function name => visible (names.shown scopes name)
  | .openBlock | .openInline => ['\x7b']
  | .closeBlock => ['\x7d']
  | .continueAfter keyword => visible keyword
  | .startLine | .endLine | .blankLine | .enter _ | .leave => []

/-- The scopes after a step. -/
def scopesAfter (scopes : List (Table String String)) : Step → List (Table String String)
  | .enter fragment => fragment.routineNames :: scopes
  | .leave => scopes.drop 1
  | .write _ | .function _ | .startLine | .endLine | .blankLine | .openBlock | .openInline
  | .closeBlock | .continueAfter _ => scopes

end Step

/-- The visible characters that steps write. -/
def ink (names : FunctionNames) : List (Table String String) → List Step → List Char
  | _, [] => []
  | scopes, step :: steps => step.ink names scopes ++ ink names (step.scopesAfter scopes) steps

namespace Printer

variable {p : Printer}

/-- The names of routines in the scopes around the place being written. -/
def routineNames (p : Printer) : List (Table String String) :=
  p.scopes.map (·.routineNames)

/-- The name that a function is shown by depends on the scopes and on the table, not on the text. -/
theorem shownName_eq (p : Printer) (function : String) :
    p.shownName function = p.functionNames.shown p.routineNames function := by
  unfold shownName FunctionNames.shown routineNames
  cases p.scopes with
  | nil => rfl
  | cons f scopes =>
    simp only [List.head?_cons, List.map_cons, Option.bind_some]
    cases f.routineNames[function]? <;> rfl

/-- Between two states of a text some visible characters are written, and nothing else changes but
the layout. -/
structure Writes (p : Printer) (characters : List Char) (q : Printer) : Prop where
  settings : q.settings = p.settings
  functionNames : q.functionNames = p.functionNames
  scopes : q.scopes = p.scopes
  text : visible q.text = visible p.text ++ characters

/-- Two printers in a row write their visible characters in a row. -/
theorem Writes.trans {q r : Printer} {first second : List Char} (hfirst : p.Writes first q)
    (hsecond : q.Writes second r) : p.Writes (first ++ second) r where
  settings := hsecond.settings.trans hfirst.settings
  functionNames := hsecond.functionNames.trans hfirst.functionNames
  scopes := hsecond.scopes.trans hfirst.scopes
  text := by rw [hsecond.text, hfirst.text, List.append_assoc]

/-- Writing a text writes what is visible of it. -/
theorem writes_write (p : Printer) (text : String) : p.Writes (visible text) (p.write text) :=
  ⟨rfl, rfl, rfl, visible_append _ _⟩

/-- A line end is not visible. -/
theorem writes_endLine (p : Printer) : p.Writes [] p.endLine :=
  ⟨rfl, rfl, rfl, visible_append p.text "\n"⟩

/-- The indentation is not visible, however deep, if one level of it is not. -/
theorem writes_startLine (hindent : visible p.settings.indent = []) : p.Writes [] p.startLine := by
  refine ⟨rfl, rfl, rfl, ?_⟩
  unfold startLine
  dsimp only
  generalize p.text = text
  rw [List.append_nil]
  induction p.level generalizing text with
  | zero => rfl
  | succ level ih =>
    rw [List.replicate_succ, List.foldl_cons, ih, visible_append, hindent, List.append_nil]

/-- What stands before a brace is not visible in either style. -/
theorem writes_breakBeforeBrace (hindent : visible p.settings.indent = []) :
    p.Writes [] p.breakBeforeBrace := by
  unfold breakBeforeBrace
  split
  · exact p.writes_write " "
  · exact p.writes_endLine.trans (writes_startLine hindent)

/-- Opening a block on the same line writes a brace. -/
theorem writes_openInline (p : Printer) : p.Writes ['\x7b'] p.openInline := by
  have hline : p.Writes ['\x7b'] (p.write "\x7b").endLine :=
    (p.writes_write "\x7b").trans (writes_endLine _)
  exact ⟨rfl, rfl, rfl, hline.text⟩

/-- Opening a block writes a brace in both styles. -/
theorem writes_openBlock (hindent : visible p.settings.indent = []) :
    p.Writes ['\x7b'] p.openBlock := by
  unfold openBlock
  split
  · exact (writes_breakBeforeBrace hindent).trans (writes_openInline _)
  · exact p.writes_openInline

/-- Closing a block writes a brace. -/
theorem writes_closeBlock (hindent : visible p.settings.indent = []) :
    p.Writes ['\x7d'] p.closeBlock := by
  have hoff : p.Writes [] { p with level := p.level - 1 } :=
    ⟨rfl, rfl, rfl, (List.append_nil _).symm⟩
  exact (hoff.trans (writes_startLine hindent)).trans (writes_write _ "\x7d")

/-- A step writes its visible characters, whatever the settings are. -/
theorem step_ink (hindent : visible p.settings.indent = []) (s : Step) :
    (p.step s).settings = p.settings ∧ (p.step s).functionNames = p.functionNames ∧
      (p.step s).routineNames = s.scopesAfter p.routineNames ∧
      visible (p.step s).text = visible p.text ++ s.ink p.functionNames p.routineNames := by
  have hinside {characters : List Char} {q : Printer} (hwrites : p.Writes characters q) :
      q.settings = p.settings ∧ q.functionNames = p.functionNames ∧
        q.routineNames = p.routineNames ∧ visible q.text = visible p.text ++ characters :=
    ⟨hwrites.settings, hwrites.functionNames, congrArg (List.map _) hwrites.scopes, hwrites.text⟩
  cases s with
  | write text => exact hinside (p.writes_write text)
  | function name =>
    rw [Step.ink, ← shownName_eq]
    exact hinside (p.writes_write _)
  | startLine => exact hinside (writes_startLine hindent)
  | endLine => exact hinside p.writes_endLine
  | blankLine => exact hinside ⟨rfl, rfl, rfl, visible_append p.text "\n"⟩
  | openBlock => exact hinside (writes_openBlock hindent)
  | openInline => exact hinside p.writes_openInline
  | closeBlock => exact hinside (writes_closeBlock hindent)
  | continueAfter keyword =>
    exact hinside ((writes_breakBeforeBrace hindent).trans (writes_write _ keyword))
  | enter fragment => exact ⟨rfl, rfl, rfl, (List.append_nil _).symm⟩
  | leave => exact ⟨rfl, rfl, List.map_drop, (List.append_nil _).symm⟩

/-- Steps write their visible characters, whatever the settings are. -/
theorem visible_run (hindent : visible p.settings.indent = []) (steps : List Step) :
    visible (p.run steps).text = visible p.text ++ ink p.functionNames p.routineNames steps := by
  induction steps generalizing p with
  | nil => exact (List.append_nil _).symm
  | cons s steps ih =>
    obtain ⟨hsettings, hnames, hscopes, htext⟩ := step_ink hindent s
    rw [run_cons, ih (hsettings ▸ hindent), htext, hnames, hscopes, ink, List.append_assoc]

end Printer

end GmlDecompiler

import GmlDecompiler.Config

/-!
# Layout steps

A text is described by a list of steps that does not depend on the settings. Replaying the steps
on a `Printer` gives the text: it keeps the indentation, decides where braces go, and knows
under which names the functions of the innermost scope are shown.
-/

namespace GmlDecompiler

/-- One step of writing a text. -/
inductive Step where
  /-- A piece of text. -/
  | write (text : String)
  /-- A function, by the name it is shown under. -/
  | function (name : String)
  /-- The indentation of a new line. -/
  | startLine
  /-- The end of a line. -/
  | endLine
  /-- An empty line. -/
  | blankLine
  /-- The opening brace of a block, on the same line or on a new one as the settings say. -/
  | openBlock
  /-- The opening brace of a block that continues the line in any case. -/
  | openInline
  /-- The closing brace of a block. -/
  | closeBlock
  /-- A keyword that goes on after a block. -/
  | continueAfter (keyword : String)
  /-- The text goes on inside the scope of a fragment. -/
  | enter (fragment : Fragment)
  /-- The innermost scope ends. -/
  | leave

/-- A text being written. -/
structure Printer where
  /-- The choices about the output. -/
  settings : Settings := {}
  /-- The names of global functions. -/
  functionNames : FunctionNames := {}
  /-- The fragments around the place being written, innermost first. -/
  scopes : List Fragment := []
  /-- The text so far. -/
  text : String := ""
  /-- The level of indentation. -/
  level : Nat := 0
  /-- Something was written on the current line. -/
  lineHasText : Bool := false

namespace Printer

/-- The printer of a configuration, before anything is written. -/
def ofConfig (c : Config) : Printer where
  settings := c.settings
  functionNames := c.functionNames

/-- A piece of text. -/
def write (p : Printer) (text : String) : Printer :=
  { p with text := p.text ++ text, lineHasText := true }

/-- The indentation of a new line. -/
def startLine (p : Printer) : Printer :=
  { p with
    text := (List.replicate p.level p.settings.indent).foldl (· ++ ·) p.text
    lineHasText := false }

/-- The end of a line. -/
def endLine (p : Printer) : Printer :=
  { p with text := p.text ++ "\n", lineHasText := false }

/-- An empty line. -/
def blankLine (p : Printer) : Printer :=
  { p with text := p.text ++ "\n" }

/-- A blank, or a new line if braces stand on lines of their own. -/
def breakBeforeBrace (p : Printer) : Printer :=
  if p.settings.braceOnSameLine then p.write " " else p.endLine.startLine

/-- An opening brace, after which the text is indented. -/
def openInline (p : Printer) : Printer :=
  let p := (p.write "\x7b").endLine
  { p with level := p.level + 1 }

/-- The opening brace of a block. -/
def openBlock (p : Printer) : Printer :=
  (if p.lineHasText then p.breakBeforeBrace else p).openInline

/-- The closing brace of a block. -/
def closeBlock (p : Printer) : Printer :=
  ({ p with level := p.level - 1 }.startLine).write "\x7d"

/-- The name a function is shown under: as the innermost scope declares it, as it is known
globally, or its own. -/
def shownName (p : Printer) (function : String) : String :=
  match p.scopes.head?.bind (·.routineNames[function]?) with
  | some name => name
  | none => (p.functionNames.nameOf? function).getD function

/-- One step. -/
def step (p : Printer) : Step → Printer
  | .write text => p.write text
  | .function name => p.write (p.shownName name)
  | .startLine => p.startLine
  | .endLine => p.endLine
  | .blankLine => p.blankLine
  | .openBlock => p.openBlock
  | .openInline => p.openInline
  | .closeBlock => p.closeBlock
  | .continueAfter keyword => p.breakBeforeBrace.write keyword
  | .enter fragment => { p with scopes := fragment :: p.scopes }
  | .leave => { p with scopes := p.scopes.drop 1 }

/-- Several steps. -/
def run (p : Printer) (steps : List Step) : Printer :=
  steps.foldl step p

/-- No steps change nothing. -/
@[simp] theorem run_nil (p : Printer) : p.run [] = p := rfl

/-- Steps are taken one after another. -/
@[simp] theorem run_cons (p : Printer) (step : Step) (steps : List Step) :
    p.run (step :: steps) = (p.step step).run steps := rfl

/-- A text may be written in two parts. -/
@[simp] theorem run_append (p : Printer) (first second : List Step) :
    p.run (first ++ second) = (p.run first).run second :=
  List.foldl_append

end Printer

end GmlDecompiler

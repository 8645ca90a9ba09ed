import GmlDecompiler.FunctionNames
import GmlDecompiler.Tree.Fragment

/-!
# Configuration

What is known while code is decompiled, apart from the code itself.
-/

namespace GmlDecompiler

/-- What is known while code is decompiled. -/
structure Config where
  /-- The choices about the output. -/
  settings : Settings := {}
  /-- What the bytecode means. -/
  dialect : Dialect := Version.current.dialect
  /-- How integers are to be read. -/
  readings : Readings := {}
  /-- The names of arguments. -/
  argumentNames : ArgumentNames := ∅
  /-- The names of global functions. -/
  functionNames : FunctionNames := {}
  /-- The enums of the game. -/
  enums : List EnumDef := []

namespace Config

/-- The name an argument is shown by, in a dialect that has such names. -/
def nameArgument (c : Config) (f : Fragment) (index : Nat) : Option String × Fragment :=
  if c.dialect.namedArguments then
    let (name, f) := f.nameArgument c.argumentNames c.settings index
    (some name, f)
  else (none, f)

end Config

end GmlDecompiler

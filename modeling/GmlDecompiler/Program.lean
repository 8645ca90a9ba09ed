import GmlDecompiler.Build
import GmlDecompiler.Layout.Source
import GmlDecompiler.Tidy

/-!
# Decompilation

Building, tidying and printing put together, for one entry and for a whole program.
-/

namespace GmlDecompiler

/-- The tidied tree of an entry, and its fragment. -/
structure Decompiled where
  /-- The tree. -/
  root : Stmt
  /-- The fragment. -/
  fragment : Fragment

/-- The text of a tree in the scope of its fragment. -/
def Decompiled.print (c : Config) (d : Decompiled) : Except Fault String := do
  let steps ← d.root.steps
  return ((Printer.ofConfig c).run (.enter d.fragment :: steps ++ [.leave])).text

namespace Config

/-- An entry built and tidied; a fault is labelled with the entry's name. -/
def decompile (c : Config) (entry : Entry) : Except Fault Decompiled :=
  Except.mapError (Fault.entry entry.name) do
    let (block, f) ← entry.build c.dialect
    let (root, f) ← c.tidyEntry (.block block) f
    return ⟨root, f⟩

/-- The text of an entry; a fault is labelled with the entry's name. -/
def decompileToText (c : Config) (entry : Entry) : Except Fault String := do
  let decompiled ← c.decompile entry
  Except.mapError (Fault.entry entry.name) (decompiled.print c)

end Config

/-- A program: its code, and what is known about the game. -/
structure Program where
  /-- The pieces of code. -/
  entries : List Entry := []
  /-- The enums of the game. -/
  enums : List EnumDef := []
  /-- The scripts that declare global functions. -/
  scripts : List Script := []
  /-- The names of arguments. -/
  argumentNames : ArgumentNames := ∅
  /-- How integers are to be read. -/
  readings : Readings := {}

namespace Program

/-- A program as JSON. -/
def toJson (p : Program) : Json :=
  .obj [("code_entries", .ofList Entry.toJson p.entries),
    ("enums", .ofList EnumDef.toJson p.enums),
    ("global_scripts", .ofList Script.toJson p.scripts),
    ("argument_names", p.argumentNames.toJson),
    ("macro_types", p.readings.toJson)]

/-- A program read from JSON. -/
def ofJson? (j : Json) : Option Program := do
  let r ← j.asRecord? ["code_entries", "enums", "global_scripts", "argument_names", "macro_types"]
  let entries ← r.optional "code_entries" [] (Json.asList? Entry.ofJson?)
  let enums ← r.optional "enums" [] (Json.asList? EnumDef.ofJson?)
  let scripts ← r.optional "global_scripts" [] (Json.asList? Script.ofJson?)
  let argumentNames ← r.optional "argument_names" ∅ ArgumentNames.ofJson?
  let readings ← r.optional "macro_types" {} Readings.ofJson?
  return ⟨entries, enums, scripts, argumentNames, readings⟩

/-- What is known while a program is decompiled. Only a dialect with named arguments declares
functions in scripts. -/
def config (p : Program) (o : Options) : Config where
  settings := o.settings
  dialect := o.version.dialect
  readings := p.readings
  argumentNames := p.argumentNames
  functionNames := if o.version.dialect.namedArguments then .ofScripts p.scripts else {}
  enums := p.enums

/-- The text of an entry under a comment with its name; a fault becomes a comment too. -/
def entryText (c : Config) (entry : Entry) : String :=
  "// " ++ entry.name ++ "\n" ++
    match c.decompileToText entry with
    | .ok text => text
    | .error fault => "// " ++ fault.message ++ "\n"

/-- The text of a program, its entries apart by empty lines. -/
def decompile (p : Program) (o : Options) : String :=
  "\n".intercalate (p.entries.map (entryText (p.config o)))

end Program

/-- The text of an entry about which nothing else is known. -/
def decompile (entry : Entry) : Except Fault String :=
  Config.decompileToText {} entry

end GmlDecompiler

import GmlDecompiler.Json.Parser
import GmlDecompiler.Program

/-!
# The command line

`decompile file PATH` prints the text of a program file, `completion SHELL` a completion script.
The first thing wrong with the arguments is a usage error; a request for help or for the version
ends the reading of the arguments where it stands.
-/

namespace GmlDecompiler.CommandLine

/-- The shells that completion scripts are made for. -/
inductive Shell where
  | bash
  | elvish
  | fish
  | powershell
  | zsh
  deriving DecidableEq

instance : Named Shell where
  values := [.bash, .elvish, .fish, .powershell, .zsh]
  name
    | .bash => "bash"
    | .elvish => "elvish"
    | .fish => "fish"
    | .powershell => "powershell"
    | .zsh => "zsh"

/-- What to decompile, and how. Nothing is set twice. -/
structure FileRequest where
  /-- The program file. -/
  path : Option String := none
  /-- The generation of the language. -/
  version : Option Version := none
  /-- The settings file. -/
  settings : Option String := none
  /-- Checks for missing arguments stay. -/
  noDefaultArgs : Bool := false
  /-- Opening braces get lines of their own. -/
  braceOnNewLine : Bool := false
  /-- Enum declarations come last. -/
  enumsAtBottom : Bool := false
  /-- The number of blanks of a level of indentation. -/
  indent : Option Nat := none
  deriving DecidableEq

/-- What the arguments ask for. -/
inductive Command where
  /-- How to use the program. -/
  | help
  /-- The version of the program. -/
  | version
  /-- A completion script. -/
  | completion (shell : Shell)
  /-- The text of a program file. -/
  | file (path : String) (request : FileRequest)
  deriving DecidableEq

/-- Why the program fails. -/
inductive Failure where
  /-- The arguments make no sense. -/
  | usage
  /-- A file cannot be read. -/
  | unreadable (path : String)
  /-- A file does not hold what it should. -/
  | malformed (path : String)
  /-- A level of indentation is wider than any text. -/
  | tooWide (width : Nat)
  deriving DecidableEq

/-- The exit code of a failure. -/
def Failure.code : Failure → UInt8
  | .usage => 2
  | .unreadable _ | .malformed _ => 1
  | .tooWide _ => 101

/-- A failure in words. -/
def Failure.message : Failure → String
  | .usage => "error: unexpected arguments, for more information try '--help'"
  | .unreadable path => "failed to read " ++ path
  | .malformed path => "failed to parse " ++ path
  | .tooWide width => "failed to indent by " ++ toString width ++ " blanks"

/-- The commands that help can be asked for, by their names. -/
inductive Topic where
  | node (name : String) (topics : List Topic)

/-- The topics under `decompile`. -/
def decompileTopics : List Topic := [.node "file" [], .node "help" []]

/-- All topics. -/
def topics : List Topic :=
  [.node "decompile" decompileTopics, .node "completion" [], .node "help" []]

/-- Help on a topic, found name by name. -/
def helpOn (topics : List Topic) : List String → Except Failure Command
  | [] => .ok .help
  | name :: names =>
    match topics.find? fun (.node n _) => n == name with
    | some (.node _ topics) => helpOn topics names
    | none => .error .usage

/-- What an argument looks like. -/
inductive Argument where
  /-- The end of the options. -/
  | separator
  /-- A long option, with the value attached to it. -/
  | long (name : String) (value : Option String)
  /-- Short options; the first decides. -/
  | short (name : Char)
  /-- Anything else. -/
  | value (text : String)
  deriving DecidableEq

/-- An argument by its looks. -/
def Argument.ofText (text : String) : Argument :=
  match text.toList with
  | ['-', '-'] => .separator
  | '-' :: '-' :: rest =>
    let name := rest.takeWhile (· != '=')
    match rest.drop name.length with
    | [] => .long (String.ofList name) none
    | _ :: attached => .long (String.ofList name) (some (String.ofList attached))
  | '-' :: c :: _ => .short c
  | _ => .value text

/-- A request for help. -/
def Argument.isHelp (a : Argument) : Bool :=
  a == .long "help" none || a == .short 'h'

/-- A number of blanks: digits, after an optional plus sign. -/
def indent? (text : String) : Option Nat :=
  match text.toList with
  | '+' :: digits => decimalIndex? digits
  | digits => decimalIndex? digits

/-- A generation of the language. -/
def version? (text : String) : Option Version :=
  if text = "current" then some .current else if text = "legacy" then some .legacy else none

/-- A file name, which is not empty. -/
def path? (text : String) : Option String :=
  if text.isEmpty then none else some text

namespace FileRequest

/-- An option that takes a value; none if there is no such option, or it is set already, or the
value is not one of its values. -/
def withValue? (r : FileRequest) (name value : String) : Option FileRequest :=
  if name = "version" && r.version.isNone then
    (version? value).map fun v => { r with version := some v }
  else if name = "settings" && r.settings.isNone then
    (path? value).map fun v => { r with settings := some v }
  else if name = "indent" && r.indent.isNone then
    (indent? value).map fun v => { r with indent := some v }
  else none

/-- An option that takes no value; none if there is no such option, or it is set already. -/
def withFlag? (r : FileRequest) (name : String) : Option FileRequest :=
  if name = "no-default-args" && !r.noDefaultArgs then some { r with noDefaultArgs := true }
  else if name = "brace-on-new-line" && !r.braceOnNewLine then
    some { r with braceOnNewLine := true }
  else if name = "enums-at-bottom" && !r.enumsAtBottom then some { r with enumsAtBottom := true }
  else none

/-- The program file; none if there is one already. -/
def withPath? (r : FileRequest) (text : String) : Option FileRequest :=
  if r.path.isNone then (path? text).map fun path => { r with path := some path } else none

/-- The option takes a value. -/
def takesValue (name : String) : Bool :=
  name == "version" || name == "settings" || name == "indent"

/-- The number of bytes that no text has. -/
def textLimit : Nat := 0x8000000000000000

/-- The indentation that the options ask for, where the given one stands if they ask for none. -/
def indentation (r : FileRequest) (given : String) : Except Failure String :=
  match r.indent with
  | none => .ok given
  | some width =>
    if width < textLimit then .ok (String.ofList (List.replicate width ' '))
    else .error (.tooWide width)

/-- The settings that the options leave of the given ones, with some indentation. -/
def adjust (r : FileRequest) (s : Settings) (indent : String) : Settings where
  argumentPattern := s.argumentPattern
  foldDefaults := s.foldDefaults && !r.noDefaultArgs
  blankAroundEnums := s.blankAroundEnums
  blankAroundRoutines := s.blankAroundRoutines
  enumsFirst := s.enumsFirst && !r.enumsAtBottom
  braceOnSameLine := s.braceOnSameLine && !r.braceOnNewLine
  indent := indent

end FileRequest

/-- A step that fails is a usage error. -/
def orUsage {α : Type} : Option α → Except Failure α
  | some a => .ok a
  | none => .error .usage

/-- The arguments after `decompile file`. -/
def readFile (r : FileRequest) : List String → Except Failure Command
  | [] => orUsage (r.path.map fun path => .file path r)
  | text :: rest =>
    match Argument.ofText text, rest with
    | .separator, rest => do
      let r ← orUsage (rest.foldlM FileRequest.withPath? r)
      orUsage (r.path.map fun path => .file path r)
    | .long name (some value), rest => do
      let r ← orUsage (r.withValue? name value)
      readFile r rest
    | .long name none, value :: rest' =>
      if FileRequest.takesValue name then
        match Argument.ofText value with
        | .value value => do
          let r ← orUsage (r.withValue? name value)
          readFile r rest'
        | _ => .error .usage
      else if name = "help" then .ok .help
      else do
        let r ← orUsage (r.withFlag? name)
        readFile r (value :: rest')
    | .long name none, [] =>
      if name = "help" then .ok .help
      else do
        let r ← orUsage (r.withFlag? name)
        readFile r []
    | .short c, _ => if c = 'h' then .ok .help else .error .usage
    | .value text, rest => do
      let r ← orUsage (r.withPath? text)
      readFile r rest

/-- The arguments after `completion`. -/
def readCompletion (shell : Option Shell) : List String → Except Failure Command
  | [] => orUsage (shell.map .completion)
  | text :: rest =>
    if (Argument.ofText text).isHelp then .ok .help
    else
      match Argument.ofText text, shell, rest with
      | .value word, none, rest => do
        let shell ← orUsage (Named.ofName? word)
        readCompletion (some shell) rest
      | .separator, none, [word] => orUsage ((Named.ofName? word).map .completion)
      | .separator, some shell, [] => .ok (.completion shell)
      | _, _, _ => .error .usage

/-- The arguments after `decompile`. -/
def readDecompile : List String → Except Failure Command
  | "file" :: rest => readFile {} rest
  | "help" :: rest => helpOn decompileTopics rest
  | text :: _ => if (Argument.ofText text).isHelp then .ok .help else .error .usage
  | [] => .error .usage

/-- What the arguments ask for. -/
def read : List String → Except Failure Command
  | [] => .ok .help
  | "decompile" :: rest => readDecompile rest
  | "completion" :: rest => readCompletion none rest
  | "help" :: rest => helpOn topics rest
  | text :: rest =>
    let argument := Argument.ofText text
    if argument.isHelp then .ok .help
    else if argument == .long "version" none || argument == .short 'V' then .ok .version
    else if argument == .separator && rest.isEmpty then .ok .help
    else .error .usage

/-- The files a command reads, in order. -/
def Command.paths : Command → List String
  | .file path request => request.settings.toList ++ [path]
  | _ => []

/-- A file that holds a JSON value. Its numbers are computed step by step. -/
def load {α : Type} (contents : String → Option String) (ofJson? : Json → Option α)
    (path : String) : Except Failure α :=
  match contents path with
  | none => .error (.unreadable path)
  | some text =>
    match (Json.parse? Numeral.stepwise? text).bind ofJson? with
    | none => .error (.malformed path)
    | some a => .ok a

/-- How to use the program. -/
def helpText : String :=
  "Decompiles GML bytecode\n\n" ++
  "Usage: gml-decompiler [COMMAND]\n\n" ++
  "Commands:\n" ++
  "  decompile file <PATH>  Decompiles every code entry of a JSON program dump\n" ++
  "  completion <SHELL>     Prints a completion script: bash, elvish, fish, powershell, zsh\n" ++
  "  help                   Prints this message\n\n" ++
  "Options of decompile file:\n" ++
  "  --version <VERSION>    Bytecode version: current (default) or legacy\n" ++
  "  --settings <SETTINGS>  JSON file with settings; missing keys keep their defaults\n" ++
  "  --no-default-args      Leaves default argument checks as plain if statements\n" ++
  "  --brace-on-new-line    Puts opening braces on their own line\n" ++
  "  --enums-at-bottom      Puts enum declarations after the code\n" ++
  "  --indent <INDENT>      Number of spaces per indentation level\n\n" ++
  "Options:\n" ++
  "  -h, --help             Prints this message\n" ++
  "  -V, --version          Prints the version\n"

/-- The version of the program. -/
def versionText : String := "gml-decompiler 0.1.0\n"

/-- The words that complete a command. -/
def completionWords : String := "decompile completion help"

/-- A completion script. -/
def completionText : Shell → String
  | .bash => "complete -W \"" ++ completionWords ++ "\" gml-decompiler\n"
  | .elvish =>
    "set edit:completion:arg-completer[gml-decompiler] = \x7b|@words| put " ++ completionWords
      ++ " \x7d\n"
  | .fish => "complete -c gml-decompiler -f -a \"" ++ completionWords ++ "\"\n"
  | .powershell =>
    "Register-ArgumentCompleter -Native -CommandName gml-decompiler -ScriptBlock \x7b\n" ++
    "    \"" ++ completionWords ++ "\".Split(\" \")\n\x7d\n"
  | .zsh => "#compdef gml-decompiler\ncompadd " ++ completionWords ++ "\n"

/-- What a command prints. The settings are read before the program. -/
def Command.respond (contents : String → Option String) : Command → Except Failure String
  | .help => .ok helpText
  | .version => .ok versionText
  | .completion shell => .ok (completionText shell)
  | .file path request => do
    let settings ← match request.settings with
      | none => pure {}
      | some path => load contents Settings.ofJson? path
    let indent ← request.indentation settings.indent
    let program ← load contents Program.ofJson? path
    return program.decompile ⟨request.version.getD .current, request.adjust settings indent⟩

/-- What the program prints for some arguments, when files have these contents. -/
def run (contents : String → Option String) (arguments : List String) : Except Failure String := do
  let command ← read arguments
  command.respond contents

end GmlDecompiler.CommandLine

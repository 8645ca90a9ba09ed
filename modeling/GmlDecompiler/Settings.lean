import GmlDecompiler.Json.Reader

/-!
# Settings

What a user can choose about the output, and which generation of the bytecode is read.
-/

namespace GmlDecompiler

/-- Choices about the output. -/
structure Settings where
  /-- The name of an argument that has none; `{0}` in it stands for the index. -/
  argumentPattern : String := "arg\x7b0\x7d"
  /-- Checks for missing arguments become default values. -/
  foldDefaults : Bool := true
  /-- Enum declarations stand apart. -/
  blankAroundEnums : Bool := true
  /-- Function declarations stand apart. -/
  blankAroundRoutines : Bool := true
  /-- Enum declarations come before the code rather than after it. -/
  enumsFirst : Bool := true
  /-- An opening brace stays on the line it belongs to. -/
  braceOnSameLine : Bool := true
  /-- The text of one level of indentation. -/
  indent : String := "    "
  deriving DecidableEq

/-- What the bytecode means in a generation of the language. -/
structure Dialect where
  /-- Arguments have names. -/
  namedArguments : Bool
  /-- An array access has one index only. -/
  unifiedArrays : Bool
  deriving DecidableEq

/-- The generations of the language. -/
inductive Version where
  | current
  | legacy
  deriving DecidableEq

/-- The dialect of a generation. -/
def Version.dialect : Version → Dialect
  | .current => ⟨true, true⟩
  | .legacy => ⟨false, false⟩

/-- Everything a user chooses. -/
structure Options where
  /-- The generation of the language. -/
  version : Version := .current
  /-- The choices about the output. -/
  settings : Settings := {}
  deriving DecidableEq

namespace Settings

/-- A pattern with every `{0}` replaced, from left to right. -/
def fill (index : List Char) : List Char → List Char
  | '\x7b' :: '0' :: '\x7d' :: rest => index ++ fill index rest
  | c :: rest => c :: fill index rest
  | [] => []

/-- A pattern without a brace stays as it is. -/
theorem fill_eq_self {index pattern : List Char} (h : '\x7b' ∉ pattern) :
    fill index pattern = pattern := by
  fun_induction fill index pattern <;> simp_all

/-- The name of an argument that has none. -/
def unknownArgument (s : Settings) (index : Nat) : String :=
  String.ofList (fill (toString index).toList s.argumentPattern.toList)

/-- The settings as JSON. -/
def toJson (s : Settings) : Json :=
  .obj [("unknown_argument_name_pattern", .str s.argumentPattern),
    ("cleanup_default_argument_values", .bool s.foldDefaults),
    ("empty_line_around_enums", .bool s.blankAroundEnums),
    ("empty_line_around_function_declarations", .bool s.blankAroundRoutines),
    ("macro_declarations_at_top", .bool s.enumsFirst),
    ("open_block_brace_on_same_line", .bool s.braceOnSameLine),
    ("indent_string", .str s.indent)]

/-- The names of the settings, in order. -/
def memberNames : List String :=
  ["unknown_argument_name_pattern", "cleanup_default_argument_values",
    "empty_line_around_enums", "empty_line_around_function_declarations",
    "macro_declarations_at_top", "open_block_brace_on_same_line", "indent_string"]

/-- The settings read from JSON; a missing one keeps its default. -/
def ofJson? (j : Json) : Option Settings := do
  let d : Settings := {}
  let r ← j.asRecord? memberNames
  let argumentPattern ←
    r.optional "unknown_argument_name_pattern" d.argumentPattern Json.asString?
  let foldDefaults ← r.optional "cleanup_default_argument_values" d.foldDefaults Json.asBool?
  let blankAroundEnums ← r.optional "empty_line_around_enums" d.blankAroundEnums Json.asBool?
  let blankAroundRoutines ←
    r.optional "empty_line_around_function_declarations" d.blankAroundRoutines Json.asBool?
  let enumsFirst ← r.optional "macro_declarations_at_top" d.enumsFirst Json.asBool?
  let braceOnSameLine ←
    r.optional "open_block_brace_on_same_line" d.braceOnSameLine Json.asBool?
  let indent ← r.optional "indent_string" d.indent Json.asString?
  return ⟨argumentPattern, foldDefaults, blankAroundEnums, blankAroundRoutines, enumsFirst,
    braceOnSameLine, indent⟩

end Settings

namespace Dialect

/-- A dialect as JSON. -/
def toJson (d : Dialect) : Json :=
  .obj [("named_arguments", .bool d.namedArguments), ("unified_arrays", .bool d.unifiedArrays)]

/-- A dialect read from JSON. -/
def ofJson? (j : Json) : Option Dialect := do
  let r ← j.asRecord? ["named_arguments", "unified_arrays"]
  let namedArguments ← r.required "named_arguments" Json.asBool?
  let unifiedArrays ← r.required "unified_arrays" Json.asBool?
  return ⟨namedArguments, unifiedArrays⟩

end Dialect

instance : Named Version where
  values := [.current, .legacy]
  name
    | .current => "Current"
    | .legacy => "Legacy"

namespace Options

/-- The options as JSON. -/
def toJson (o : Options) : Json :=
  .obj [("version", .ofNamed o.version), ("settings", o.settings.toJson)]

/-- The options read from JSON. -/
def ofJson? (j : Json) : Option Options := do
  let r ← j.asRecord? ["version", "settings"]
  let version ← r.required "version" (Json.asNamed? false)
  let settings ← r.required "settings" Settings.ofJson?
  return ⟨version, settings⟩

end Options

end GmlDecompiler

import GmlDecompiler.Tree.Expr

/-!
# Knowledge about a game

Bytecode keeps integers where the source had names. A `Reading` says how the integers in one
place are to be read; tables say which reading applies to which variable or argument, and how
the arguments of a piece of code are called.
-/

namespace GmlDecompiler

/-- How an integer in a known place is to be read. -/
inductive Reading where
  /-- As one of the instance keywords. -/
  | keyword
  /-- As a truth value. -/
  | boolean
  /-- As a named constant. -/
  | constants (names : Table Int64 String)
  /-- As a member of an enum. -/
  | member (enum : String)

namespace Reading

/-- The instance keyword with a value. -/
def keywordOf? (value : Int64) : Option Instance :=
  if -32768 ≤ value.toInt ∧ value.toInt < 32768 then
    match Instance.ofRaw value.toInt16 with
    | .own => some .own
    | .other => some .other
    | .all => some .all
    | .noone => some .noone
    | .global => some .global
    | _ => none
  else none

/-- The truth value with a value. -/
def booleanOf? (value : Int64) : Option Bool :=
  if value = 0 then some false else if value = 1 then some true else none

/-- The text of the member with a value, in the first enum of that name. -/
def memberOf? (enums : List EnumDef) (enum : String) (value : Int64) : Option String :=
  (enums.find? (·.name == enum)).bind fun definition =>
    (definition.memberFor? value).map fun m => definition.name ++ "." ++ m.name

/-- What an integer reads as, if the reading covers it. -/
def resolve? (enums : List EnumDef) (r : Reading) (value : Int64) : Option Shape :=
  match r with
  | .keyword => (keywordOf? value).map .keyword
  | .boolean => (booleanOf? value).map .boolean
  | .constants names => names[value]?.map .constant
  | .member enum => (memberOf? enums enum value).map .constant

/-- An expression with an integer literal read; other expressions stay. -/
def apply (enums : List EnumDef) (r : Reading) (e : Expr) : Expr :=
  match e.integer?.bind (r.resolve? enums) with
  | some shape => { e with shape := shape }
  | none => e

/-- A reading as JSON. -/
def toJson : Reading → Json
  | .keyword => .str "Instance"
  | .boolean => .str "Boolean"
  | .constants names => .obj [("Constants", .ofTable (toString ·.toInt) .str names)]
  | .member enum => .obj [("Enum", .str enum)]

/-- A reading read from JSON. -/
def ofJson? (j : Json) : Option Reading :=
  j.asChoice?.bind fun (word, payload) =>
    if word = "Instance" then
      if Json.isNoPayload false payload then some .keyword else none
    else if word = "Boolean" then
      if Json.isNoPayload false payload then some .boolean else none
    else if word = "Constants" then
      (payload.bind (Json.asTable? Json.integerKey? Json.asString?)).map .constants
    else if word = "Enum" then (payload.bind Json.asString?).map .member
    else none

end Reading

/-- Which readings apply where. -/
structure Readings where
  /-- The readings of variables. -/
  byVariable : Table String Reading := ∅
  /-- The readings of the arguments of functions. -/
  byFunction : Table String (List (Option Reading)) := ∅

namespace Readings

/-- The readings as JSON. -/
def toJson (r : Readings) : Json :=
  .obj [("variables", .ofTable id Reading.toJson r.byVariable),
    ("function_arguments",
      .ofTable id (.ofList (.ofOption Reading.toJson)) r.byFunction)]

/-- Readings read from JSON. -/
def ofJson? (j : Json) : Option Readings := do
  let r ← j.asRecord? ["variables", "function_arguments"]
  let byVariable ← r.optional "variables" ∅ (Json.asTable? Json.textKey? Reading.ofJson?)
  let byFunction ← r.optional "function_arguments" ∅
    (Json.asTable? Json.textKey? (Json.asList? (Json.asOption? Reading.ofJson?)))
  return ⟨byVariable, byFunction⟩

/-- Arguments read one by one; those without a reading stay. -/
def applyAll (enums : List EnumDef) : List (Option Reading) → List Expr → List Expr
  | some reading :: readings, e :: es => reading.apply enums e :: applyAll enums readings es
  | none :: readings, e :: es => e :: applyAll enums readings es
  | _, es => es

/-- The arguments of a call of a function. -/
def readArguments (r : Readings) (enums : List EnumDef) (function : String) (es : List Expr) :
    List Expr :=
  match r.byFunction[function]? with
  | some readings => applyAll enums readings es
  | none => es

end Readings

/-- The names of arguments, by the name of the code and in argument order. -/
abbrev ArgumentNames := Table String (List String)

namespace ArgumentNames

/-- The name of an argument. -/
def name? (names : ArgumentNames) (codeName : String) (index : Nat) : Option String :=
  (Std.ExtTreeMap.get? names codeName).bind (·[index]?)

/-- The names as JSON. -/
def toJson (names : ArgumentNames) : Json :=
  .ofTable id (.ofList .str) names

/-- Names read from JSON. -/
def ofJson? (j : Json) : Option ArgumentNames :=
  j.asTable? Json.textKey? (Json.asList? Json.asString?)

end ArgumentNames

end GmlDecompiler

import GmlDecompiler.Skeleton.Format

/-!
# Names of global functions

A script declares a function by binding the fragment just before to a variable. The scan
recognises the instructions of such a binding in the code that follows each fragment, and
collects which function got which name.
-/

namespace GmlDecompiler

/-- What follows a fragment of a script. -/
inductive Successor where
  /-- A run of instructions. -/
  | block (code : CodeBlock)
  /-- Anything else. -/
  | other
  deriving DecidableEq

/-- A script: for each of its fragments, the first being the script itself, what follows it. -/
structure Script where
  /-- The name of the script. -/
  name : String
  /-- What follows each fragment. -/
  fragments : List (List Successor) := []
  deriving DecidableEq

namespace Successor

/-- A successor as JSON. -/
def toJson : Successor → Json
  | .block code => .obj (("kind", .str "block") :: code.members)
  | .other => .obj [("kind", .str "other")]

/-- A successor read from JSON. -/
def ofJson? (j : Json) : Option Successor :=
  let tagged := match j with
    | .obj members => Json.taggedMembers? members
    | .arr items => Json.taggedItems? items
    | _ => none
  (if j.isWhole then tagged else none).bind fun t =>
    match t.tag with
    | .str kind =>
      if kind = "block" then (CodeBlock.ofContent? id t.content).map .block
      else if kind = "other" then (t.content []).map fun _ => .other
      else none
    | _ => none

end Successor

namespace Script

/-- A script as JSON. -/
def toJson (s : Script) : Json :=
  .obj [("name", .str s.name),
    ("fragments",
      .ofList (fun successors => .obj [("successors", .ofList Successor.toJson successors)])
        s.fragments)]

/-- A fragment read from JSON. -/
def fragmentOfJson? (j : Json) : Option (List Successor) := do
  let r ← j.asRecord? ["successors"]
  r.optional "successors" [] (Json.asList? Successor.ofJson?)

/-- A script read from JSON. -/
def ofJson? (j : Json) : Option Script := do
  let r ← j.asRecord? ["name", "fragments"]
  let name ← r.required "name" Json.asString?
  let fragments ← r.optional "fragments" [] (Json.asList? fragmentOfJson?)
  return ⟨name, fragments⟩

end Script

namespace Instruction

/-- A call of a given function. -/
def isCallTo (i : Instruction) (function : String) : Bool :=
  i.opcode == .call && i.function == some function

/-- A conversion of a 32-bit integer to a variable slot. -/
def isIntToVariable (i : Instruction) : Bool :=
  i.opcode == .convert && i.type1 == .int32 && i.type2 == .variable

/-- A duplication that is no swap. -/
def isPlainDup (i : Instruction) : Bool :=
  i.opcode == .duplicate && i.swapSize == 0

/-- A push of a reference to a function, which it names. -/
def pushedFunction? (i : Instruction) : Option String :=
  if i.opcode == .push && i.type1 == .int32 then i.function else none

end Instruction

namespace Binding

/-- The store that ends a binding: a copy of the function, the owner it is stored for, and
the variable it is stored to. -/
def storedName? (ownerOk : Int16 → Bool) : List Instruction → Option String
  | dup :: owner :: pop :: _ =>
    if dup.isPlainDup && owner.opcode == .pushImmediate && ownerOk owner.int16
        && pop.opcode == .pop then
      pop.target.map VarRef.name
    else none
  | _ => none

/-- The binding of a function to its owner: the owner, converted, and the call that binds. -/
def methodName? : List Instruction → Option String
  | owner :: conversion :: method :: rest =>
    if (owner.int16 == -1 || owner.int16 == -16) && conversion.isIntToVariable
        && method.isCallTo Reserved.method then
      storedName? (fun _ => true) rest
    else none
  | _ => none

/-- The binding of a constructor, which has no owner. Struct literals are bound the same way,
but stored for the static or the global instance. -/
def constructorName? : List Instruction → Option String
  | nullObject :: method :: rest =>
    if nullObject.isCallTo Reserved.nullObject && method.isCallTo Reserved.method then
      storedName? (fun raw => raw != -16 && raw != -5) rest
    else none
  | _ => none

/-- The function bound by the code after a fragment, and the name it gets. -/
def ofCode? : List Instruction → Option (String × String)
  | push :: conversion :: third :: rest =>
    if conversion.isIntToVariable then
      push.pushedFunction?.bind fun function =>
        (match third.opcode with
          | .pushImmediate => methodName? (third :: rest)
          | .call => constructorName? (third :: rest)
          | _ => none).map (function, ·)
    else none
  | _ => none

end Binding

/-- The bindings after the fragments of a script, the script itself left out. -/
def Script.bindings (s : Script) : List (String × String) :=
  (s.fragments.drop 1).filterMap fun successors =>
    match successors with
    | .block code :: _ => Binding.ofCode? code.code
    | _ => none

/-- The names of functions, and the functions with a name. -/
structure FunctionNames where
  /-- The name of a function. -/
  byFunction : Table String String := ∅
  /-- The function with a name. -/
  byName : Table String String := ∅
  deriving DecidableEq

namespace FunctionNames

/-- A function given a name; later names replace earlier ones. -/
def insert (names : FunctionNames) (binding : String × String) : FunctionNames :=
  ⟨names.byFunction.insert binding.1 binding.2, names.byName.insert binding.2 binding.1⟩

/-- Several functions given names, one after another. -/
def insertAll (names : FunctionNames) (bindings : List (String × String)) : FunctionNames :=
  bindings.foldl insert names

/-- Names may be given in two parts. -/
theorem insertAll_append (names : FunctionNames) (first second : List (String × String)) :
    names.insertAll (first ++ second) = (names.insertAll first).insertAll second :=
  List.foldl_append

/-- The names bound by scripts. -/
def ofScripts (scripts : List Script) : FunctionNames :=
  insertAll {} (scripts.flatMap Script.bindings)

/-- The name of a function. -/
def nameOf? (names : FunctionNames) (function : String) : Option String :=
  names.byFunction[function]?

/-- The function with a name. -/
def function? (names : FunctionNames) (name : String) : Option String :=
  names.byName[name]?

/-- The number of functions that have a name. -/
def size (names : FunctionNames) : Nat :=
  names.byFunction.size

end FunctionNames

end GmlDecompiler

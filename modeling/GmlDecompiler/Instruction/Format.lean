import GmlDecompiler.Instruction.Basic

/-!
# Instructions as JSON

Every member of an instruction is written; on reading, all but the opcode may be missing and
then have the value they have in `Instruction.plain`. Inside a tagged record a plain word may
also be written with an empty payload, which the argument `nested` admits.
-/

namespace GmlDecompiler

instance : Named Opcode where
  values := [.convert, .multiply, .divide, .remainder, .modulo, .add, .subtract, .and, .or, .xor,
    .negate, .not, .shiftLeft, .shiftRight, .compare, .pop, .duplicate, .ret, .exit, .popDelete,
    .branch, .branchTrue, .branchFalse, .pushContext, .popContext, .push, .pushLocal,
    .pushGlobal, .pushBuiltin, .pushImmediate, .call, .callValue, .extended]
  name
    | .convert => "Convert"
    | .multiply => "Multiply"
    | .divide => "Divide"
    | .remainder => "GmlDivRemainder"
    | .modulo => "GmlModulo"
    | .add => "Add"
    | .subtract => "Subtract"
    | .and => "And"
    | .or => "Or"
    | .xor => "Xor"
    | .negate => "Negate"
    | .not => "Not"
    | .shiftLeft => "ShiftLeft"
    | .shiftRight => "ShiftRight"
    | .compare => "Compare"
    | .pop => "Pop"
    | .duplicate => "Duplicate"
    | .ret => "Return"
    | .exit => "Exit"
    | .popDelete => "PopDelete"
    | .branch => "Branch"
    | .branchTrue => "BranchTrue"
    | .branchFalse => "BranchFalse"
    | .pushContext => "PushWithContext"
    | .popContext => "PopWithContext"
    | .push => "Push"
    | .pushLocal => "PushLocal"
    | .pushGlobal => "PushGlobal"
    | .pushBuiltin => "PushBuiltin"
    | .pushImmediate => "PushImmediate"
    | .call => "Call"
    | .callValue => "CallVariable"
    | .extended => "Extended"

instance : Named ExtOp where
  values := [.setArrayOwner, .pushArrayFinal, .popArrayFinal, .pushArrayContainer,
    .setStaticInitialized, .hasStaticInitialized, .copyOnWrite, .pushReference]
  name
    | .setArrayOwner => "SetArrayOwner"
    | .pushArrayFinal => "PushArrayFinal"
    | .popArrayFinal => "PopArrayFinal"
    | .pushArrayContainer => "PushArrayContainer"
    | .setStaticInitialized => "SetStaticInitialized"
    | .hasStaticInitialized => "HasStaticInitialized"
    | .copyOnWrite => "CopyOnWrite"
    | .pushReference => "PushReference"

instance : Named SlotType where
  values := [.double, .int32, .int64, .boolean, .variable, .string, .int16]
  name
    | .double => "Double"
    | .int32 => "Int32"
    | .int64 => "Int64"
    | .boolean => "Boolean"
    | .variable => "Variable"
    | .string => "String"
    | .int16 => "Int16"

instance : Named Comparison where
  values := [.less, .lessEqual, .equal, .notEqual, .greaterEqual, .greater]
  name
    | .less => "LesserThan"
    | .lessEqual => "LesserEqualThan"
    | .equal => "EqualTo"
    | .notEqual => "NotEqualTo"
    | .greaterEqual => "GreaterEqualThan"
    | .greater => "GreaterThan"

instance : Named Reference where
  values := [.array, .stackTop, .normal, .ofInstance, .multiPush, .multiPushPop]
  name
    | .array => "Array"
    | .stackTop => "StackTop"
    | .normal => "Normal"
    | .ofInstance => "Instance"
    | .multiPush => "MultiPush"
    | .multiPushPop => "MultiPushPop"

namespace Instance

/-- The instances written as plain words. -/
def keywords : List (String × Instance) :=
  [("Undefined", .undefined), ("Own", .own), ("Other", .other), ("All", .all), ("Noone", .noone),
    ("Global", .global), ("Builtin", .builtin), ("Local", .locals), ("StackTop", .stackTop),
    ("Argument", .argument), ("Static", .static)]

/-- An instance as JSON. -/
def toJson : Instance → Json
  | .undefined => .str "Undefined"
  | .own => .str "Own"
  | .other => .str "Other"
  | .all => .str "All"
  | .noone => .str "Noone"
  | .global => .str "Global"
  | .builtin => .str "Builtin"
  | .locals => .str "Local"
  | .stackTop => .str "StackTop"
  | .argument => .str "Argument"
  | .static => .str "Static"
  | .object index => .obj [("Object", .int index.toInt)]

/-- An instance read from JSON. -/
def ofJson? (nested : Bool) (j : Json) : Option Instance :=
  j.asChoice?.bind fun (word, payload) =>
    if word = "Object" then (payload.bind Json.asInt16?).map .object
    else if Json.isNoPayload nested payload then keywords.lookup word
    else none

end Instance

namespace VarRef

/-- A variable as JSON. -/
def toJson (v : VarRef) : Json :=
  .obj [("name", .str v.name), ("instance_type", v.owner.toJson)]

/-- A variable read from JSON. -/
def ofJson? (nested : Bool) (j : Json) : Option VarRef := do
  let r ← j.asRecord? ["name", "instance_type"]
  let name ← r.required "name" Json.asString?
  let owner ← r.optional "instance_type" .own (Instance.ofJson? nested)
  return ⟨name, owner⟩

end VarRef

/-- A function name as JSON. -/
def functionToJson (name : String) : Json :=
  .obj [("name", .str name)]

/-- A function name read from JSON. -/
def functionOfJson? (j : Json) : Option String := do
  let r ← j.asRecord? ["name"]
  r.required "name" Json.asString?

namespace Literal

/-- A literal as JSON. -/
def toJson : Literal → Json
  | .int16 value => .obj [("Int16", .int value.toInt)]
  | .int32 value => .obj [("Int32", .int value.toInt)]
  | .int64 value => .obj [("Int64", .int value.toInt)]
  | .double value => .obj [("Double", .real value)]
  | .boolean value => .obj [("Boolean", .bool value)]
  | .string value => .obj [("String", .str value)]

/-- A literal read from JSON. -/
def ofJson? : Json → Option Literal
  | .obj [(word, payload)] =>
    if word.text = "Int16" then payload.asInt16?.map .int16
    else if word.text = "Int32" then payload.asInt32?.map .int32
    else if word.text = "Int64" then payload.asInt64?.map .int64
    else if word.text = "Double" then payload.asDouble?.map .double
    else if word.text = "Boolean" then payload.asBool?.map .boolean
    else if word.text = "String" then payload.asString?.map .string
    else none
  | _ => none

end Literal

namespace Instruction

/-- The members of an instruction, in order. -/
def memberNames : List String :=
  ["address", "kind", "ext_kind", "comparison", "type1", "type2", "instance_type",
    "reference_type", "variable", "function", "value", "argument_count", "duplication_size",
    "duplication_size2"]

/-- The members of an instruction as JSON. -/
def members (i : Instruction) : List (MemberName × Json) :=
  [("address", .int i.address.toNat),
    ("kind", .ofNamed i.opcode),
    ("ext_kind", .ofOption .ofNamed i.extOp),
    ("comparison", .ofOption .ofNamed i.comparison),
    ("type1", .ofNamed i.type1),
    ("type2", .ofNamed i.type2),
    ("instance_type", i.owner.toJson),
    ("reference_type", .ofNamed i.reference),
    ("variable", .ofOption VarRef.toJson i.target),
    ("function", .ofOption functionToJson i.function),
    ("value", .ofOption Literal.toJson i.literal),
    ("argument_count", .int i.argCount.toNat),
    ("duplication_size", .int i.dupSize.toNat),
    ("duplication_size2", .int i.swapSize.toNat)]

/-- An instruction as JSON. -/
def toJson (i : Instruction) : Json :=
  .obj i.members

/-- An instruction read from JSON. -/
def ofJson? (nested : Bool) (j : Json) : Option Instruction := do
  let r ← j.asRecord? memberNames
  let address ← r.optional "address" 0 Json.asUInt32?
  let opcode ← r.required "kind" (Json.asNamed? nested)
  let extOp ← r.optional "ext_kind" none (Json.asOption? (Json.asNamed? nested))
  let comparison ← r.optional "comparison" none (Json.asOption? (Json.asNamed? nested))
  let type1 ← r.optional "type1" .variable (Json.asNamed? nested)
  let type2 ← r.optional "type2" .variable (Json.asNamed? nested)
  let owner ← r.optional "instance_type" .own (Instance.ofJson? nested)
  let reference ← r.optional "reference_type" .normal (Json.asNamed? nested)
  let target ← r.optional "variable" none (Json.asOption? (VarRef.ofJson? nested))
  let function ← r.optional "function" none (Json.asOption? functionOfJson?)
  let literal ← r.optional "value" none (Json.asOption? Literal.ofJson?)
  let argCount ← r.optional "argument_count" 0 Json.asUInt16?
  let dupSize ← r.optional "duplication_size" 0 Json.asUInt8?
  let swapSize ← r.optional "duplication_size2" 0 Json.asUInt8?
  return ⟨address, opcode, extOp, comparison, type1, type2, owner, reference, target, function,
    literal, argCount, dupSize, swapSize⟩

end Instruction

end GmlDecompiler

import GmlDecompiler.Instruction.Format
import GmlDecompiler.Skeleton.Basic

/-!
# Structured code as JSON

A node is a record tagged with its kind. Reading is one fold over the JSON value: each value is
viewed as a node, as a region and as a list of regions, built from the views of its parts, and
the record that holds it takes the view it needs.
-/

namespace GmlDecompiler

instance : Named Logic where
  values := [.and, .or]
  name
    | .and => "And"
    | .or => "Or"

namespace CodeBlock

/-- The members of a run of instructions, in order. -/
def memberNames : List String := ["start_address", "instructions"]

/-- The members of a run of instructions as JSON. -/
def members (b : CodeBlock) : List (MemberName × Json) :=
  [("start_address", .int b.start.toNat), ("instructions", .ofList Instruction.toJson b.code)]

/-- A run of instructions read from the content of a tagged record. -/
def ofContent? {β : Type} (source : β → Json)
    (content : List String → Option (Json.Record β)) : Option CodeBlock := do
  let r ← content memberNames
  let start ← r.optional "start_address" 0 fun value => (source value).asUInt32?
  let code ← r.required "instructions" fun value =>
    (source value).asList? (Instruction.ofJson? true)
  return ⟨start, code⟩

end CodeBlock

namespace RoutineHeader

/-- The members of a routine with a header and a body as JSON. -/
def members (h : RoutineHeader) (body : Json) : List (MemberName × Json) :=
  [("code_entry_name", .str h.codeName),
    ("function_name", .ofOption .str h.name),
    ("is_constructor", .bool h.isConstructor),
    ("argument_count", .int h.argCount.toNat),
    ("body", body)]

end RoutineHeader

namespace Node

mutual

/-- A node as JSON. -/
def toJson : Node → Json
  | .block code => .obj (("kind", .str "block") :: code.members)
  | .branch thenPart none =>
    .obj [("kind", .str "if"), ("then_branch", .arr (regionToJson thenPart)),
      ("else_branch", .null)]
  | .branch thenPart (some elsePart) =>
    .obj [("kind", .str "if"), ("then_branch", .arr (regionToJson thenPart)),
      ("else_branch", .arr (regionToJson elsePart))]
  | .chain logic conditions =>
    .obj [("kind", .str "short_circuit"), ("logic", .ofNamed logic),
      ("conditions", .arr (regionsToJson conditions))]
  | .loop condition body =>
    .obj [("kind", .str "while"), ("condition", .arr (regionToJson condition)),
      ("body", .arr (regionToJson body))]
  | .leave => .obj [("kind", .str "break")]
  | .again => .obj [("kind", .str "continue")]
  | .guarded body none =>
    .obj [("kind", .str "try"), ("body", .arr (regionToJson body)), ("finally", .null)]
  | .guarded body (some cleanup) =>
    .obj [("kind", .str "try"), ("body", .arr (regionToJson body)),
      ("finally", .arr (regionToJson cleanup))]
  | .statics body =>
    .obj [("kind", .str "static_init"), ("body", .arr (regionToJson body))]
  | .routine header body =>
    .obj (("kind", .str "fragment") :: header.members (.arr (regionToJson body)))

/-- The nodes of a region as JSON. -/
def regionToJson : List Node → List Json
  | [] => []
  | node :: nodes => node.toJson :: regionToJson nodes

/-- A list of regions as JSON. -/
def regionsToJson : List (List Node) → List Json
  | [] => []
  | region :: regions => .arr (regionToJson region) :: regionsToJson regions

end

/-- What a JSON value can be read as. -/
structure View where
  /-- The value itself. -/
  source : Json
  /-- The value as a node. -/
  node : Option Node := none
  /-- The value as a region. -/
  region : Option (List Node) := none
  /-- The value as a list of regions. -/
  regions : Option (List (List Node)) := none

/-- The value as a region that may be absent. -/
def View.region? (v : View) : Option (Option (List Node)) :=
  match v.source with
  | .null => some none
  | _ => v.region.map some

/-- The kinds of nodes, in order. -/
def kinds : List String :=
  ["block", "if", "short_circuit", "while", "break", "continue", "try", "static_init",
    "fragment"]

/-- The kind a tag names. Inside another node the tag may also be the number of the kind. -/
def kindOfTag? : Json → Option String
  | .str word => some word
  | .int index => if 0 ≤ index then kinds[index.toNat]? else none
  | _ => none

/-- A branch read from its members. -/
def branchOfContent? (r : Json.Record View) : Option Node := do
  let thenPart ← r.required "then_branch" View.region
  let elsePart ← r.optional "else_branch" none View.region?
  return .branch thenPart elsePart

/-- A chain read from its members. -/
def chainOfContent? (r : Json.Record View) : Option Node := do
  let logic ← r.required "logic" fun value => value.source.asNamed? true
  let conditions ← r.required "conditions" View.regions
  return .chain logic conditions

/-- A loop read from its members. -/
def loopOfContent? (r : Json.Record View) : Option Node := do
  let condition ← r.required "condition" View.region
  let body ← r.required "body" View.region
  return .loop condition body

/-- A guarded region read from its members. -/
def guardedOfContent? (r : Json.Record View) : Option Node := do
  let body ← r.required "body" View.region
  let cleanup ← r.optional "finally" none View.region?
  return .guarded body cleanup

/-- A nested routine read from its members. -/
def routineOfContent? (r : Json.Record View) : Option Node := do
  let codeName ← r.required "code_entry_name" (·.source.asString?)
  let name ← r.optional "function_name" none (·.source.asOption? Json.asString?)
  let isConstructor ← r.optional "is_constructor" false (·.source.asBool?)
  let argCount ← r.optional "argument_count" 0 (·.source.asUInt16?)
  let body ← r.required "body" View.region
  return .routine ⟨codeName, name, isConstructor, argCount⟩ body

/-- A node read from a tagged record. -/
def ofTagged? (t : Json.Tagged View) : Option Node :=
  (kindOfTag? t.tag.source).bind fun kind =>
    if kind = "block" then (CodeBlock.ofContent? View.source t.content).map .block
    else if kind = "if" then (t.content ["then_branch", "else_branch"]).bind branchOfContent?
    else if kind = "short_circuit" then (t.content ["logic", "conditions"]).bind chainOfContent?
    else if kind = "while" then (t.content ["condition", "body"]).bind loopOfContent?
    else if kind = "break" then (t.content []).map fun _ => .leave
    else if kind = "continue" then (t.content []).map fun _ => .again
    else if kind = "try" then (t.content ["body", "finally"]).bind guardedOfContent?
    else if kind = "static_init" then
      (t.content ["body"]).bind fun r => (r.required "body" View.region).map .statics
    else if kind = "fragment" then
      (t.content ["code_entry_name", "function_name", "is_constructor", "argument_count",
        "body"]).bind routineOfContent?
    else none

mutual

/-- The views of a value. -/
def view : Json → View
  | .arr items =>
    let views := viewItems items
    ⟨.arr items, (Json.taggedItems? views).bind ofTagged?, views.mapM View.node,
      views.mapM View.region⟩
  | .obj members =>
    let views := viewMembers members
    { source := .obj members, node := (Json.taggedMembers? views).bind ofTagged? }
  | other => { source := other }

/-- The views of the items of an array. -/
def viewItems : List Json → List View
  | [] => []
  | item :: items => view item :: viewItems items

/-- The views of the members of an object. -/
def viewMembers : List (MemberName × Json) → List (MemberName × View)
  | [] => []
  | (name, value) :: members => (name, view value) :: viewMembers members

end

/-- The tag of the value is a word. -/
def hasWordTag : Json → Bool
  | .arr (.str _ :: _) => true
  | .obj members =>
    match Json.member? members "kind" with
    | some (.str _) => true
    | _ => false
  | _ => false

/-- A node read from JSON. -/
def ofJson? (j : Json) : Option Node :=
  if hasWordTag j && j.isWhole then (view j).node else none

end Node

namespace Entry

/-- An entry as JSON. -/
def toJson (e : Entry) : Json :=
  .obj [("name", .str e.name), ("argument_count", .int e.argCount.toNat),
    ("body", .arr (Node.regionToJson e.body))]

/-- An entry read from JSON. -/
def ofJson? (j : Json) : Option Entry := do
  let r ← j.asRecord? ["name", "argument_count", "body"]
  let name ← r.required "name" Json.asString?
  let argCount ← r.optional "argument_count" 0 Json.asUInt16?
  let body ← r.required "body" (Json.asList? Node.ofJson?)
  return ⟨name, argCount, body⟩

end Entry

end GmlDecompiler

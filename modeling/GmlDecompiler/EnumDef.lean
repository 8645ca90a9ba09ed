import GmlDecompiler.Json.Reader

/-!
# Enum definitions

An enum names integers. Its declaration lists the members by value, members of equal value in
the order in which they were defined.
-/

namespace GmlDecompiler

/-- A named value of an enum. -/
structure EnumMember where
  /-- The name. -/
  name : String
  /-- The value. -/
  value : Int64
  deriving DecidableEq

/-- An enum with its members as they were defined. -/
structure EnumDef where
  /-- The name of the enum. -/
  name : String
  /-- The members as they were defined. -/
  members : List EnumMember
  deriving DecidableEq

/-- A member as JSON. -/
def EnumMember.toJson (m : EnumMember) : Json :=
  .obj [("name", .str m.name), ("value", .int m.value.toInt)]

/-- A member read from JSON. -/
def EnumMember.ofJson? (j : Json) : Option EnumMember := do
  let r ← j.asRecord? ["name", "value"]
  let name ← r.required "name" Json.asString?
  let value ← r.required "value" Json.asInt64?
  return ⟨name, value⟩

namespace EnumDef

/-- The first member with a value. -/
def memberFor? (e : EnumDef) (value : Int64) : Option EnumMember :=
  e.members.find? (·.value == value)

/-- The members by ascending value. -/
def sorted (e : EnumDef) : List EnumMember :=
  e.members.mergeSort fun a b => a.value ≤ b.value

/-- Sorting loses no member and adds none. -/
theorem sorted_perm (e : EnumDef) : e.sorted.Perm e.members :=
  List.mergeSort_perm _ _

/-- The values of the sorted members ascend. -/
theorem pairwise_sorted (e : EnumDef) : e.sorted.Pairwise fun a b => a.value ≤ b.value := by
  have h := @List.pairwise_mergeSort EnumMember (fun a b => a.value ≤ b.value)
    (fun a b c => by simpa using Int64.le_trans)
    (fun a b => by simpa using Int64.le_total a.value b.value) e.members
  simpa [sorted] using h

/-- The value a member has if none is written: one more than the last, up to the largest. -/
def successor (value : Int64) : Int64 :=
  if value = Int64.maxValue then value else value + 1

/-- An enum as JSON. -/
def toJson (e : EnumDef) : Json :=
  .obj [("name", .str e.name), ("values", .ofList EnumMember.toJson e.members)]

/-- An enum read from JSON. -/
def ofJson? (j : Json) : Option EnumDef := do
  let r ← j.asRecord? ["name", "values"]
  let name ← r.required "name" Json.asString?
  let members ← r.required "values" (Json.asList? EnumMember.ofJson?)
  return ⟨name, members⟩

end EnumDef

end GmlDecompiler

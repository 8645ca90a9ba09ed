import GmlDecompiler.Json.Basic
import Std.Data.ExtTreeMap

/-!
# Reading domain values from JSON

The conventions of the file formats, stated once. A record is an object with named members or
an array that lists them in order; unknown members are ignored, whether they have a value or
not, and a repeated one is refused. A tagged record must have a value in all its parts. A
choice is a word, or an object with the word as its only member when the choice has a payload.
A table is an object.
-/

namespace GmlDecompiler

/-- A finite table whose entries have no order of their own. -/
abbrev Table (κ : Type) (α : Type) [Ord κ] := Std.ExtTreeMap κ α compare

/-- A finite type whose values are written as plain words. -/
class Named (α : Type) where
  /-- All values. -/
  values : List α
  /-- The word of a value. -/
  name : α → String

/-- The value with a given word. -/
def Named.ofName? {α : Type} [Named α] (word : String) : Option α :=
  (Named.values : List α).find? (Named.name · == word)

namespace Json

/-- A truth value. -/
def asBool? : Json → Option Bool
  | .bool value => some value
  | _ => none

/-- A string. -/
def asString? : Json → Option String
  | .str value => some value
  | _ => none

/-- An integer of a half-open range. -/
def asIntIn? (low high : Int) : Json → Option Int
  | .int value => if low ≤ value && value < high then some value else none
  | _ => none

/-- An unsigned 8-bit word. -/
def asUInt8? (j : Json) : Option UInt8 :=
  (j.asIntIn? 0 256).map fun value => UInt8.ofNat value.toNat

/-- An unsigned 16-bit word. -/
def asUInt16? (j : Json) : Option UInt16 :=
  (j.asIntIn? 0 65536).map fun value => UInt16.ofNat value.toNat

/-- An unsigned 32-bit word. -/
def asUInt32? (j : Json) : Option UInt32 :=
  (j.asIntIn? 0 4294967296).map fun value => UInt32.ofNat value.toNat

/-- A signed 16-bit word. -/
def asInt16? (j : Json) : Option Int16 :=
  (j.asIntIn? (-32768) 32768).map Int16.ofInt

/-- A signed 32-bit word. -/
def asInt32? (j : Json) : Option Int32 :=
  (j.asIntIn? (-2147483648) 2147483648).map Int32.ofInt

/-- A signed 64-bit word. -/
def asInt64? (j : Json) : Option Int64 :=
  (j.asIntIn? (-9223372036854775808) 9223372036854775808).map Int64.ofInt

/-- An index: an unsigned 64-bit word. -/
def asIndex? (j : Json) : Option Nat :=
  (j.asIntIn? 0 18446744073709551616).map Int.toNat

/-- A number, an integer being read as the number nearest to it. -/
def asDouble? : Json → Option Double
  | .int value => some (.ofInt value)
  | .real value => some value
  | _ => none

/-- An array, each item read alike. -/
def asList? {α : Type} (read : Json → Option α) : Json → Option (List α)
  | .arr items => items.mapM read
  | _ => none

/-- `null`, or a value. -/
def asOption? {α : Type} (read : Json → Option α) : Json → Option (Option α)
  | .null => some none
  | other => (read other).map some

/-- A table; the last of several entries with one key stands. -/
def asTable? {κ α : Type} [Ord κ] [Std.TransOrd κ] (key : MemberName → Option κ)
    (read : Json → Option α) : Json → Option (Table κ α)
  | .obj members => do
    let entries ← members.mapM fun (name, value) => do
      return (← key name, ← read value)
    return entries.foldl (fun table (k, a) => table.insert k a) ∅
  | _ => none

/-- A word with its payload, if it has one. -/
def asChoice? : Json → Option (String × Option Json)
  | .str word => some (word, none)
  | .obj [(word, payload)] => some (word.text, some payload)
  | _ => none

/-- A payload that says nothing: none, or `null`, or, inside a tagged record, an empty object. -/
def isNoPayload (nested : Bool) : Option Json → Bool
  | none => true
  | some .null => true
  | some (.obj []) => nested
  | some _ => false

/-- A plain word. -/
def asNamed? {α : Type} [Named α] (nested : Bool) (j : Json) : Option α :=
  j.asChoice?.bind fun (word, payload) =>
    if isNoPayload nested payload then Named.ofName? word else none

/-- A plain word as JSON. -/
def ofNamed {α : Type} [Named α] (a : α) : Json :=
  .str (Named.name a)

/-- An optional value as JSON. -/
def ofOption {α : Type} (write : α → Json) : Option α → Json
  | none => .null
  | some a => write a

/-- A list as JSON. -/
def ofList {α : Type} (write : α → Json) (as : List α) : Json :=
  .arr (as.map write)

/-- A table as JSON. -/
def ofTable {κ α : Type} [Ord κ] [Std.TransOrd κ] (key : κ → String) (write : α → Json)
    (table : Table κ α) : Json :=
  .obj (table.toList.map fun (k, a) => (↑(key k), write a))

/-- The members of a record, each found by its name. -/
abbrev Record (β : Type) := String → Option β

/-- The first member with a name. -/
def member? {β : Type} (members : List (MemberName × β)) (name : String) : Option β :=
  (members.find? (·.1.text == name)).map Prod.snd

/-- The number of members with a name. -/
def countMembers {β : Type} (members : List (MemberName × β)) (name : String) : Nat :=
  members.countP (·.1.text == name)

/-- The members of an object, none of these names being repeated. -/
def recordOfMembers? {β : Type} (names : List String) (members : List (MemberName × β)) :
    Option (Record β) :=
  if names.all fun name => countMembers members name ≤ 1 then some (member? members) else none

/-- The members listed by an array in the order of these names. -/
def recordOfItems? {β : Type} (names : List String) (items : List β) : Option (Record β) :=
  if items.length ≤ names.length then some ((names.zip items).lookup ·) else none

/-- A record with these members. -/
def asRecord? (names : List String) : Json → Option (Record Json)
  | .obj members => recordOfMembers? names members
  | .arr items => recordOfItems? names items
  | _ => none

/-- A member that must be present. -/
def Record.required {α β : Type} (r : Record β) (name : String) (read : β → Option α) : Option α :=
  (r name).bind read

/-- A member that has a default. -/
def Record.optional {α β : Type} (r : Record β) (name : String) (default : α)
    (read : β → Option α) : Option α :=
  match r name with
  | none => some default
  | some value => read value

/-- A tagged record: its tag, and its other members once their names are known. -/
structure Tagged (β : Type) where
  /-- The tag. -/
  tag : β
  /-- The record of the members with these names. -/
  content : List String → Option (Record β)

/-- The tagged record of an object: the member `kind` is the tag. -/
def taggedMembers? {β : Type} (members : List (MemberName × β)) : Option (Tagged β) :=
  if countMembers members "kind" = 1 then
    (member? members "kind").map fun tag => ⟨tag, (recordOfMembers? · members)⟩
  else none

/-- The tagged record of an array: the first item is the tag. -/
def taggedItems? {β : Type} : List β → Option (Tagged β)
  | [] => none
  | tag :: items => some ⟨tag, (recordOfItems? · items)⟩

/-- A name as a key. -/
def textKey? (name : MemberName) : Option String :=
  some name.text

/-- A name as an integer key: digits without a leading zero, no negative zero, and all written
plainly. -/
def integerKey? (name : MemberName) : Option Int64 :=
  let (negative, digits) := match name.text.toList with
    | '-' :: rest => (true, rest)
    | rest => (false, rest)
  let value : Int := Double.digitsValue digits
  let signed := if negative then -value else value
  let plain := match digits with
    | [] => false
    | '0' :: rest => rest.isEmpty && !negative
    | _ => true
  if name.plain && plain && digits.all Char.isDigit && -9223372036854775808 ≤ signed
      && signed < 9223372036854775808 then
    some (Int64.ofInt signed)
  else none

end Json

end GmlDecompiler

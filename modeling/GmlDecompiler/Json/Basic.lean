import GmlDecompiler.Double.Shortest

/-!
# JSON values

Integers and reals are kept apart, because the readers accept an integer where an integer is
wanted and refuse `1.0`. Objects keep their members in order, repeated names included, so that
a reader can refuse a repeated member. A well-formed text that has no value is kept as well,
because a reader may ignore it.
-/

namespace GmlDecompiler

/-- The name of a member of an object. -/
structure MemberName where
  /-- The name. -/
  text : String
  /-- It is written without escapes. -/
  plain : Bool := true
  deriving DecidableEq

instance : Coe String MemberName where
  coe text := { text := text }

/-- A JSON value. -/
inductive Json where
  /-- A well-formed text that has no value: a number too large, a string with half a surrogate
  pair, an object with such a name, or a container nested too deep. No reader accepts it. -/
  | void
  /-- The value `null`. -/
  | null
  /-- A truth value. -/
  | bool (value : Bool)
  /-- A number written as an integer that fits 64 bits, signed or unsigned. -/
  | int (value : Int)
  /-- Any other number. -/
  | real (value : Double)
  /-- A string. -/
  | str (value : String)
  /-- An array. -/
  | arr (items : List Json)
  /-- An object, its members in order. -/
  | obj (members : List (MemberName × Json))

namespace Json

mutual

/-- Every part of the value has a value itself. -/
def isWhole : Json → Bool
  | .void => false
  | .arr items => areWholeItems items
  | .obj members => areWholeMembers members
  | _ => true

/-- `isWhole` for all items of an array. -/
def areWholeItems : List Json → Bool
  | [] => true
  | item :: items => item.isWhole && areWholeItems items

/-- `isWhole` for all members of an object. -/
def areWholeMembers : List (MemberName × Json) → Bool
  | [] => true
  | (_, value) :: members => value.isWhole && areWholeMembers members

end

mutual

/-- The value with only the last member of each name kept in every object. How the names were
written is forgotten. -/
def lastWins : Json → Json
  | .arr items => .arr (lastWinsItems items)
  | .obj members => .obj (lastWinsMembers members)
  | other => other

/-- `lastWins` on each item of an array. -/
def lastWinsItems : List Json → List Json
  | [] => []
  | item :: items => item.lastWins :: lastWinsItems items

/-- `lastWins` on the members of an object, dropping those whose name occurs again. -/
def lastWinsMembers : List (MemberName × Json) → List (MemberName × Json)
  | [] => []
  | (name, value) :: members =>
    if members.any (·.1.text == name.text) then lastWinsMembers members
    else (↑name.text, value.lastWins) :: lastWinsMembers members

end

/-- One hexadecimal digit. -/
def hexDigit (n : Nat) : Char :=
  if n < 10 then Char.ofNat ('0'.toNat + n) else Char.ofNat ('a'.toNat + (n - 10))

/-- A character of a string as JSON text. -/
def escape (c : Char) : List Char :=
  if c = '"' then ['\\', '"']
  else if c = '\\' then ['\\', '\\']
  else if c = '\n' then ['\\', 'n']
  else if c = '\r' then ['\\', 'r']
  else if c = '\t' then ['\\', 't']
  else if c.toNat < 32 then
    ['\\', 'u', '0', '0', hexDigit (c.toNat / 16), hexDigit (c.toNat % 16)]
  else [c]

/-- A string as JSON text. -/
def quote (s : String) : String :=
  "\"" ++ String.ofList (s.toList.flatMap escape) ++ "\""

/-- A decimal as JSON text that reads back as a real. It is written with a point if the first
digit stands at most sixteen places before the point or five behind it, and with an exponent
otherwise. -/
def decimalText (d : Double.Decimal) : String :=
  let digits := (toString d.digits).toList
  let magnitude : Int := digits.length + d.exponent
  if -5 < magnitude ∧ magnitude ≤ 16 then
    if 0 ≤ d.exponent then d.text ++ ".0" else d.text
  else
    let places := digits.drop 1
    String.ofList (digits.take 1 ++ if places.isEmpty then [] else '.' :: places)
      ++ "e" ++ toString (magnitude - 1)

/-- A finite number as JSON text that reads back as a real. -/
def realText (d : Double) : String :=
  let magnitude := if d.isZero then "0.0" else decimalText (d.shortest .even)
  if d.negative then "-" ++ magnitude else magnitude

mutual

/-- A value as compact JSON text. What has no value is written as `null`. -/
def render : Json → String
  | .null | .void => "null"
  | .bool value => if value then "true" else "false"
  | .int value => toString value
  | .real value => realText value
  | .str value => quote value
  | .arr items => "[" ++ ",".intercalate (renderItems items) ++ "]"
  | .obj members => "\x7b" ++ ",".intercalate (renderMembers members) ++ "\x7d"

/-- The texts of the items of an array. -/
def renderItems : List Json → List String
  | [] => []
  | item :: items => item.render :: renderItems items

/-- The texts of the members of an object. -/
def renderMembers : List (MemberName × Json) → List String
  | [] => []
  | (name, value) :: members =>
    (quote name.text ++ ":" ++ value.render) :: renderMembers members

end

end Json

end GmlDecompiler

import GmlDecompiler.Json.Numeral

/-!
# Reading JSON text

Two folds: one over the characters, which collects tokens, and one over the tokens, which keeps
the containers still open. A text that breaks the grammar is refused. What keeps the grammar but
has no value is read as `void`: a number too large, a string with half a surrogate pair, an
object with such a name, and containers nested more than 127 deep.
-/

namespace GmlDecompiler.Json

/-- A lexical unit of JSON text. -/
inductive Token where
  /-- A name or a number. -/
  | literal (value : Json)
  /-- A string, if it has a value, and whether it is written without escapes. -/
  | string (text : Option String) (plain : Bool)
  /-- `[` -/
  | openArr
  /-- `]` -/
  | closeArr
  /-- The opening brace. -/
  | openObj
  /-- The closing brace. -/
  | closeObj
  /-- `,` -/
  | comma
  /-- `:` -/
  | colon

/-- The value a bare word stands for: one of three names, or a number. -/
def word? (real? : Numeral → Option Double) (chars : List Char) : Option Json :=
  if chars = "null".toList then some .null
  else if chars = "true".toList then some (.bool true)
  else if chars = "false".toList then some (.bool false)
  else (Numeral.ofChars? chars).map (Numeral.toJson real?)

/-- The text of a string as far as it is read. -/
structure Quoted where
  /-- The characters, last first. -/
  chars : List Char := []
  /-- The first half of a surrogate pair whose other half must follow. -/
  high : Option Nat := none
  /-- All halves before were paired. -/
  paired : Bool := true
  /-- No escape was read. -/
  plain : Bool := true

namespace Quoted

/-- A character appended. -/
def push (q : Quoted) (c : Char) : Quoted :=
  { q with chars := c :: q.chars, high := none, paired := q.paired && q.high.isNone }

/-- The unit is the first half of a surrogate pair. -/
def isHigh (unit : Nat) : Bool := 0xD800 ≤ unit && unit < 0xDC00

/-- The unit is the second half of a surrogate pair. -/
def isLow (unit : Nat) : Bool := 0xDC00 ≤ unit && unit < 0xE000

/-- The character of a surrogate pair. -/
def pairChar (high low : Nat) : Char :=
  Char.ofNat (0x10000 + (high - 0xD800) * 0x400 + (low - 0xDC00))

/-- The unit of a four-digit escape appended. -/
def pushUnit (q : Quoted) (unit : Nat) : Quoted :=
  if isHigh unit then { q with high := some unit, paired := q.paired && q.high.isNone }
  else if isLow unit then
    match q.high with
    | some high => { q with chars := pairChar high unit :: q.chars, high := none }
    | none => { q with paired := false }
  else q.push (Char.ofNat unit)

/-- The text, if all halves are paired. -/
def text? (q : Quoted) : Option String :=
  if q.paired && q.high.isNone then some (String.ofList q.chars.reverse) else none

end Quoted

/-- Where the lexer stands. The characters of a word are kept last first. -/
inductive Mode where
  /-- Between tokens. -/
  | between
  /-- In a bare word. -/
  | word (chars : List Char)
  /-- In a string. -/
  | string (text : Quoted)
  /-- In a string, after a backslash. -/
  | escaped (text : Quoted)
  /-- In a string, in a four-digit escape, with the value so far and the number of digits still
  to come. -/
  | unicode (text : Quoted) (value : Nat) (missing : Nat)

/-- The lexer: its mode and the tokens found, last first. -/
structure Lexer where
  /-- Where it stands. -/
  mode : Mode := .between
  /-- The tokens found, last first. -/
  tokens : List Token := []

/-- The token a punctuation character stands for. -/
def punctuation? (c : Char) : Option Token :=
  if c = '[' then some .openArr
  else if c = ']' then some .closeArr
  else if c = '\x7b' then some .openObj
  else if c = '\x7d' then some .closeObj
  else if c = ',' then some .comma
  else if c = ':' then some .colon
  else none

/-- The four blanks of the format. -/
def isBlank (c : Char) : Bool :=
  c == ' ' || c == '\n' || c == '\t' || c == '\r'

/-- The character a single-letter escape stands for. -/
def unescape? (c : Char) : Option Char :=
  if c = '"' || c = '\\' || c = '/' then some c
  else if c = 'b' then some '\x08'
  else if c = 'f' then some '\x0c'
  else if c = 'n' then some '\n'
  else if c = 'r' then some '\r'
  else if c = 't' then some '\t'
  else none

/-- The value of a hexadecimal digit. -/
def hexValue? (c : Char) : Option Nat :=
  if c.isDigit then some (c.toNat - '0'.toNat)
  else if 'a' ≤ c && c ≤ 'f' then some (c.toNat - 'a'.toNat + 10)
  else if 'A' ≤ c && c ≤ 'F' then some (c.toNat - 'A'.toNat + 10)
  else none

namespace Lexer

/-- A token added. -/
def emit (l : Lexer) (token : Token) : Lexer :=
  ⟨.between, token :: l.tokens⟩

/-- A character outside words and strings. -/
def stepBetween (l : Lexer) (c : Char) : Lexer :=
  match punctuation? c with
  | some token => l.emit token
  | none =>
    if isBlank c then l
    else if c = '"' then { l with mode := .string {} }
    else { l with mode := .word [c] }

/-- One character read. -/
def step (real? : Numeral → Option Double) (l : Lexer) (c : Char) : Option Lexer :=
  match l.mode with
  | .between => some (l.stepBetween c)
  | .word chars =>
    if (punctuation? c).isSome || isBlank c || c = '"' then
      (word? real? chars.reverse).map fun value => (l.emit (.literal value)).stepBetween c
    else some { l with mode := .word (c :: chars) }
  | .string text =>
    if c = '"' then some (l.emit (.string text.text? text.plain))
    else if c = '\\' then some { l with mode := .escaped { text with plain := false } }
    else if c.toNat < 32 then none
    else some { l with mode := .string (text.push c) }
  | .escaped text =>
    if c = 'u' then some { l with mode := .unicode text 0 4 }
    else (unescape? c).map fun c => { l with mode := .string (text.push c) }
  | .unicode text value missing =>
    (hexValue? c).map fun digit =>
      let value := 16 * value + digit
      if missing ≤ 1 then { l with mode := .string (text.pushUnit value) }
      else { l with mode := .unicode text value (missing - 1) }

/-- The tokens in order, once the text has ended. -/
def finish (real? : Numeral → Option Double) (l : Lexer) : Option (List Token) :=
  match l.mode with
  | .between => some l.tokens.reverse
  | .word chars =>
    (word? real? chars.reverse).map fun value => (Token.literal value :: l.tokens).reverse
  | _ => none

end Lexer

/-- A container still open. Its contents are kept last first. -/
inductive Frame where
  /-- An array. -/
  | items (done : List Json)
  /-- An object, with the name of the member being read. A name may have no value. -/
  | members (done : List (Option MemberName × Json)) (name : Option MemberName)

/-- What may come next. -/
inductive Expect where
  /-- A value. -/
  | value
  /-- A value, or the end of an array just opened. -/
  | firstItem
  /-- The name of a member. -/
  | name
  /-- The name of a member, or the end of an object just opened. -/
  | firstName
  /-- The colon after a name. -/
  | colon
  /-- A comma, or the end of the innermost container. -/
  | separator
  /-- Nothing: the value is complete. -/
  | nothing (result : Json)

/-- The parser: the open containers, innermost first, and what may come next. -/
structure Parser where
  /-- The open containers, innermost first. -/
  frames : List Frame := []
  /-- What may come next. -/
  expect : Expect := .value

namespace Parser

/-- Containers have a value up to this depth. -/
def depthLimit : Nat := 127

/-- The members of an object, if all their names have a value. -/
def membersOf? (done : List (Option MemberName × Json)) : Option (List (MemberName × Json)) :=
  done.mapM fun (name, value) => name.map (·, value)

/-- A complete value put where it belongs. -/
def accept (p : Parser) (value : Json) : Parser :=
  match p.frames with
  | [] => ⟨[], .nothing value⟩
  | .items done :: frames => ⟨.items (value :: done) :: frames, .separator⟩
  | .members done name :: frames => ⟨.members ((name, value) :: done) name :: frames, .separator⟩

/-- The first token of a value. -/
def startValue (p : Parser) : Token → Option Parser
  | .literal value => some (p.accept value)
  | .string text _ => some (p.accept (text.elim .void .str))
  | .openArr => some ⟨.items [] :: p.frames, .firstItem⟩
  | .openObj => some ⟨.members [] none :: p.frames, .firstName⟩
  | _ => none

/-- The value of a container inside some others. -/
def contained (outer : List Frame) (value : Json) : Json :=
  if (outer.drop (depthLimit - 1)).isEmpty then value else .void

/-- The innermost container closed by a token of its kind. -/
def close (p : Parser) (token : Token) : Option Parser :=
  match p.frames, token with
  | .items done :: outer, .closeArr =>
    some (Parser.accept ⟨outer, p.expect⟩ (contained outer (.arr done.reverse)))
  | .members done _ :: outer, .closeObj =>
    some (Parser.accept ⟨outer, p.expect⟩
      (contained outer ((membersOf? done.reverse).elim .void .obj)))
  | _, _ => none

/-- The name of the next member. -/
def nameMember (p : Parser) : Token → Option Parser
  | .string text plain =>
    match p.frames with
    | .members done _ :: frames =>
      some ⟨.members done (text.map (⟨·, plain⟩)) :: frames, .colon⟩
    | _ => none
  | _ => none

/-- One token read. -/
def step (p : Parser) (token : Token) : Option Parser :=
  match p.expect, token with
  | .value, token => p.startValue token
  | .firstItem, .closeArr => p.close .closeArr
  | .firstItem, token => p.startValue token
  | .firstName, .closeObj => p.close .closeObj
  | .firstName, token => p.nameMember token
  | .name, token => p.nameMember token
  | .colon, .colon => some { p with expect := .value }
  | .colon, _ => none
  | .separator, .comma =>
    match p.frames with
    | .items _ :: _ => some { p with expect := .value }
    | .members _ _ :: _ => some { p with expect := .name }
    | [] => none
  | .separator, token => p.close token
  | .nothing _, _ => none

/-- The value read, once the tokens have ended. -/
def finish (p : Parser) : Option Json :=
  match p.expect with
  | .nothing result => some result
  | _ => none

end Parser

/-- The value of a text that is one JSON value and nothing else. Literals that are no integers
are given their values by `real?`. -/
def parse? (real? : Numeral → Option Double) (text : String) : Option Json :=
  (text.toList.foldlM (Lexer.step real?) {}).bind fun lexer =>
  (lexer.finish real?).bind fun tokens =>
  (tokens.foldlM Parser.step {}).bind Parser.finish

/-- The value of a text that is read as a whole before anything is ignored: every part must have
a value, numbers are the nearest ones, and of members with one name the last stands. -/
def document? (text : String) : Option Json :=
  (parse? Numeral.nearest? text).bind fun j => if j.isWhole then some j.lastWins else none

end GmlDecompiler.Json

import GmlDecompiler.Layout.Source
import GmlDecompiler.Proofs.Layout.Grammar
import Mathlib.Data.List.Basic
import Std.Data.String.ToInt

/-!
# Enum declarations read back

An enum declaration lists the members by value, and leaves out each value that a member has anyway:
zero for the first member, and for any other one more than the value before it, up to the largest.
Whoever reads the text by this rule gets back every member with its value, under all settings and at
every level of indentation.
-/

namespace GmlDecompiler

/-- The beginning of a line at a level of indentation. -/
def Settings.margin (s : Settings) (level : Nat) : String :=
  String.join (List.replicate level s.indent)

/-- What is written between the heading of a block and its first line. -/
def Settings.opening (s : Settings) (level : Nat) : String :=
  (if s.braceOnSameLine then " " else "\n" ++ s.margin level) ++ "\x7b\n"

/-- What is written after the last line of a block. -/
def Settings.closing (s : Settings) (level : Nat) : String :=
  s.margin level ++ "\x7d"

namespace EnumText

/-- The value of a member that has none written, from the value of the member before it. -/
def following (value : Int) : Int :=
  min (value + 1) Int64.maxValue.toInt

/-- The character may stand in the numeral of an integer. -/
def isNumeralChar (c : Char) : Bool :=
  c.isDigit || c == '-'

/-- The value of a member, and the text after it: the value that is written, if there is one. -/
def value? (unwritten : Int) (text : List Char) : Option (Int × List Char) :=
  match text.dropPrefix? " = ".toList with
  | some text =>
    (String.ofList (text.takeWhile isNumeralChar)).toInt?.map (·, text.dropWhile isNumeralChar)
  | none => some (unwritten, text)

/-- A member with its value, and the text after it. -/
def member? (margin : List Char) (unwritten : Int) (text : List Char) :
    Option ((String × Int) × List Char) := do
  let text ← text.dropPrefix? margin
  let (value, rest) ← value? unwritten (text.dropWhile isWordChar)
  return ((String.ofList (text.takeWhile isWordChar), value), rest)

/-- The members of a text that has at least one, each on a line of its own. -/
def members? (margin closing : List Char) (unwritten : Int) (text : List Char) :
    Option (List (String × Int)) := do
  let (m, rest) ← member? margin unwritten text
  match rest with
  | ',' :: '\n' :: more =>
    -- this is always so; it is tested for the recursion to end
    if more.length < text.length then do
      let ms ← members? margin closing (following m.2) more
      return m :: ms
    else none
  | rest => if rest = '\n' :: closing then some [m] else none
termination_by text.length

/-- The members between the braces. The value of the first one is zero if none is written. -/
def body? (margin closing text : List Char) : Option (List (String × Int)) :=
  if text = closing then some [] else members? margin closing 0 text

/-- The name and the members of an enum declaration that stands at a level of indentation. -/
def read? (s : Settings) (level : Nat) (text : List Char) :
    Option (String × List (String × Int)) := do
  let text ← text.dropPrefix? "enum ".toList
  let rest ← (text.dropWhile isWordChar).dropPrefix? (s.opening level).toList
  let members ← body? (s.margin (level + 1)).toList (s.closing level).toList rest
  return (String.ofList (text.takeWhile isWordChar), members)

end EnumText

namespace EnumDecl

/-- What is written after the name of a member. -/
def valueText (expected value : Int64) : String :=
  if value = expected then "" else " = " ++ toString value.toInt

/-- The lines of the members, of which the first has a value expected of it. -/
def memberLines (margin : String) (expected : Int64) : List EnumMember → String
  | [] => ""
  | m :: rest =>
    margin ++ m.name ++ valueText expected m.value ++ (if rest.isEmpty then "" else ",") ++ "\n" ++
      memberLines margin (EnumDef.successor m.value) rest

/-- The text of a declaration at a level of indentation. -/
def text (s : Settings) (level : Nat) (e : EnumDecl) : String :=
  "enum " ++ (e.definition.name ++ s.opening level ++
    memberLines (s.margin (level + 1)) 0 e.definition.sorted ++ s.closing level)

end EnumDecl

/-- Under some settings and at a level of indentation the steps write a text, and end at the same
level. -/
def Writes (s : Settings) (level : Nat) (steps : List Step) (text : String) : Prop :=
  ∀ p : Printer, p.settings = s → p.level = level →
    (p.run steps).settings = s ∧ (p.run steps).level = level ∧ (p.run steps).text = p.text ++ text

namespace Writes

variable {s : Settings} {level : Nat} {first second inner : List Step} {t u : String}

/-- No steps write nothing. -/
theorem nil : Writes s level [] "" :=
  fun _ hsettings hlevel => ⟨hsettings, hlevel, String.append_empty.symm⟩

/-- Steps in a row write their texts in a row, at the same level. -/
theorem append (hfirst : Writes s level first t) (hsecond : Writes s level second u) :
    Writes s level (first ++ second) (t ++ u) := by
  intro p hsettings hlevel
  obtain ⟨hsettings, hlevel, htext⟩ := hfirst p hsettings hlevel
  obtain ⟨hsettings', hlevel', htext'⟩ := hsecond _ hsettings hlevel
  rw [Printer.run_append]
  exact ⟨hsettings', hlevel', by rw [htext', htext, String.append_assoc]⟩

/-- Writing a text writes it. -/
theorem write (text : String) : Writes s level [.write text] text :=
  fun _ hsettings hlevel => ⟨hsettings, hlevel, rfl⟩

/-- Ending a line writes a line end. -/
theorem endLine : Writes s level [.endLine] "\n" :=
  fun _ hsettings hlevel => ⟨hsettings, hlevel, rfl⟩

/-- Starting a line writes the margin of the level. -/
theorem startLine : Writes s level [.startLine] (s.margin level) := by
  have hjoin (indents : List String) (front : String) :
      indents.foldl (· ++ ·) front = front ++ String.join indents := by
    induction indents generalizing front with
    | nil => exact String.append_empty.symm
    | cons indent indents ih => rw [List.foldl_cons, ih, String.join_cons, String.append_assoc]
  intro p hsettings hlevel
  refine ⟨hsettings, hlevel, ?_⟩
  rw [← hsettings, ← hlevel]
  exact hjoin _ _

/-- The brace of a block is written on the line of its heading or on the next one. -/
theorem breakBeforeBrace {p : Printer} (hsettings : p.settings = s) (hlevel : p.level = level) :
    p.breakBeforeBrace.settings = s ∧ p.breakBeforeBrace.level = level ∧
      p.breakBeforeBrace.text =
        p.text ++ if s.braceOnSameLine then " " else "\n" ++ s.margin level := by
  unfold Printer.breakBeforeBrace
  rw [hsettings]
  split
  · exact write " " p hsettings hlevel
  · exact (endLine.append startLine) p hsettings hlevel

/-- The lines of a block stand one level further in than its heading. -/
theorem block (heading : String) (hinner : Writes s (level + 1) inner u) :
    Writes s level ([.write heading, .openBlock] ++ inner ++ [.closeBlock])
      (heading ++ s.opening level ++ u ++ s.closing level) := by
  intro p hsettings hlevel
  let opened := p.run [.write heading, .openBlock]
  obtain ⟨hsettings₁, hlevel₁, htext₁⟩ : opened.settings = s ∧ opened.level = level + 1 ∧
      opened.text = p.text ++ heading ++ s.opening level := by
    obtain ⟨hbreak, hlevel, htext⟩ := breakBeforeBrace (p := p.write heading) hsettings hlevel
    refine ⟨hbreak, congrArg (· + 1) hlevel, ?_⟩
    change (p.write heading).breakBeforeBrace.text ++ "\x7b" ++ "\n" = _
    rw [htext, Settings.opening, String.append_assoc, String.append_assoc]
    rfl
  obtain ⟨hsettings₂, hlevel₂, htext₂⟩ := hinner opened hsettings₁ hlevel₁
  let left : Printer := { opened.run inner with level := (opened.run inner).level - 1 }
  have hleft : left.level = level := by
    change (opened.run inner).level - 1 = level
    omega
  obtain ⟨hsettings₃, hlevel₃, htext₃⟩ :=
    (startLine.append (write "\x7d")) left hsettings₂ hleft
  rw [Printer.run_append, Printer.run_append]
  refine ⟨hsettings₃, hlevel₃, htext₃.trans ?_⟩
  change (opened.run inner).text ++ s.closing level = _
  rw [htext₂, htext₁]
  simp only [String.append_assoc]

/-- The value of a member is written only if it is not the expected one. -/
theorem value (expected value : Int64) :
    Writes s level (if value = expected then [] else [.write " = ", .write (toString value.toInt)])
      (EnumDecl.valueText expected value) := by
  unfold EnumDecl.valueText
  split
  · exact .nil
  · exact (Writes.write " = ").append (.write _)

/-- The members of an enum are written on lines of their own. -/
theorem members (expected : Int64) (ms : List EnumMember) :
    Writes s level (EnumDecl.memberSteps expected ms)
      (EnumDecl.memberLines (s.margin level) expected ms) := by
  induction ms generalizing expected with
  | nil => exact .nil
  | cons m rest ih =>
    have hcomma : Writes s level (if rest.isEmpty then [] else [.write ","])
        (if rest.isEmpty then "" else ",") := by
      split
      · exact .nil
      · exact .write ","
    have hname : Writes s level [.startLine, .write m.name] (s.margin level ++ m.name) :=
      startLine.append (.write m.name)
    have hvalue := hname.append (value expected m.value)
    have hline := (hvalue.append hcomma).append endLine
    exact hline.append (ih (EnumDef.successor m.value))

/-- An enum declaration writes its text. -/
theorem enum (e : EnumDecl) : Writes s level e.steps (e.text s level) :=
  (write "enum ").append (block e.definition.name (members 0 e.definition.sorted))

end Writes

namespace EnumText

section Words

variable {front rest : List Char} {isMember : Char → Bool}

/-- The front of a list is a prefix that can be dropped. -/
theorem dropPrefix?_append (front rest : List Char) :
    (front ++ rest).dropPrefix? front = some rest :=
  List.dropPrefix?_append_of_beq rest (beq_self_eq_true front)

/-- A run of characters of a kind ends in front of a character of another kind. -/
theorem takeWhile_append_eq (hfront : ∀ c ∈ front, isMember c = true)
    (hrest : ∀ c ∈ rest.head?, isMember c = false) :
    (front ++ rest).takeWhile isMember = front ∧ (front ++ rest).dropWhile isMember = rest := by
  rw [List.takeWhile_append_of_pos hfront, List.dropWhile_append_of_pos hfront]
  cases rest with
  | nil => simp
  | cons c rest => simp [hrest c rfl]

/-- An identifier is made of the characters of words, so that reading a name takes all of it. -/
theorem isWordChar_of_isIdentifier {name : String} (hname : isIdentifier name = true) :
    ∀ c ∈ name.toList, isWordChar c = true := by
  unfold isIdentifier at hname
  split at hname
  · cases hname
  · rename_i c cs hcs
    rw [hcs]
    simp only [Bool.and_eq_true, Bool.or_eq_true, List.all_eq_true] at hname
    refine List.forall_mem_cons.mpr ⟨?_, hname.2⟩
    rcases hname.1 with halpha | hunderscore
    · simp [isWordChar, Char.isAlphanum, halpha]
    · simp [isWordChar, hunderscore]

/-- A numeral is made of digits and a sign, so that reading a value takes all of it. -/
theorem isNumeralChar_of_mem_toString (value : Int) :
    ∀ c ∈ (toString value).toList, isNumeralChar c = true := by
  have hdigits (n : Nat) : ∀ c ∈ n.repr.toList, isNumeralChar c = true := by
    intro c hc
    rw [Nat.toList_repr] at hc
    simp [isNumeralChar, Nat.isDigit_of_mem_toDigits (by omega) (by omega) hc]
  cases value with
  | ofNat n => exact hdigits n
  | negSucc n =>
    have htext : toString (Int.negSucc n) = "-" ++ (n + 1).repr := rfl
    rw [htext, String.toList_append]
    exact List.forall_mem_append.mpr ⟨by simp [isNumeralChar], hdigits (n + 1)⟩

end Words

/-- The text goes on after a member: with a comma, or with the end of the line. -/
def EndsMember (rest : List Char) : Prop :=
  rest.head? = some ',' ∨ rest.head? = some '\n'

section Members

variable {rest : List Char}

/-- After a member neither its name goes on nor its value. -/
theorem EndsMember.stops (hrest : EndsMember rest) :
    (∀ c ∈ rest.head?, isWordChar c = false) ∧ (∀ c ∈ rest.head?, isNumeralChar c = false) ∧
      rest.dropPrefix? " = ".toList = none := by
  cases rest with
  | nil => rcases hrest with hrest | hrest <;> cases hrest
  | cons c rest =>
    rcases hrest with hrest | hrest <;> cases hrest <;>
      exact ⟨fun c hc => by cases hc; rfl, fun c hc => by cases hc; rfl, rfl⟩

/-- The value that is left out is the one that follows the value before. -/
theorem toInt_successor (value : Int64) :
    (EnumDef.successor value).toInt = following value.toInt := by
  have hmax : Int64.maxValue.toInt = 2 ^ 63 - 1 := rfl
  have hbelow := Int64.toInt_lt value
  have habove := Int64.le_toInt value
  unfold EnumDef.successor following
  split
  · rename_i hlast
    rw [hlast]
    omega
  · rename_i hlast
    have hne : value.toInt ≠ 2 ^ 63 - 1 := fun h => hlast (Int64.toInt_inj.mp h)
    have hone : (1 : Int64).toInt = 1 := rfl
    rw [Int64.toInt_add, hone, Int.bmod_eq_of_le (by omega) (by omega)]
    omega

/-- The value of a member is read back, from its text or from the expected value. -/
theorem value?_append (expected value : Int64) (hrest : EndsMember rest) :
    value? expected.toInt ((EnumDecl.valueText expected value).toList ++ rest) =
      some (value.toInt, rest) := by
  obtain ⟨-, hnumeral, hequals⟩ := hrest.stops
  by_cases hsame : value = expected
  · rw [EnumDecl.valueText, if_pos hsame, String.toList_empty, List.nil_append, value?, hequals,
      hsame]
  · obtain ⟨htake, hdrop⟩ :=
      takeWhile_append_eq (isNumeralChar_of_mem_toString value.toInt) hnumeral
    have hread : (toString value.toInt).toInt? = some value.toInt := Int.toInt?_repr value.toInt
    rw [EnumDecl.valueText, if_neg hsame, String.toList_append, List.append_assoc, value?,
      dropPrefix?_append]
    dsimp only
    rw [htake, hdrop, String.ofList_toList, hread]
    rfl

/-- The name and the value of a member. -/
def pair (m : EnumMember) : String × Int :=
  (m.name, m.value.toInt)

/-- After its name a member goes on with its value, if that is written. -/
theorem word_append {m : EnumMember} (hname : isIdentifier m.name = true) (expected : Int64)
    (hrest : EndsMember rest) :
    let text := m.name.toList ++ ((EnumDecl.valueText expected m.value).toList ++ rest)
    text.takeWhile isWordChar = m.name.toList ∧
      text.dropWhile isWordChar = (EnumDecl.valueText expected m.value).toList ++ rest := by
  refine takeWhile_append_eq (isWordChar_of_isIdentifier hname) ?_
  unfold EnumDecl.valueText
  split
  · exact hrest.stops.1
  · rw [String.toList_append]
    intro c hc
    cases hc
    rfl

/-- A member is read back from its line, whatever comes after it. -/
theorem member?_append (margin : List Char) {m : EnumMember} (hname : isIdentifier m.name = true)
    (expected : Int64) (hrest : EndsMember rest) :
    member? margin expected.toInt (margin ++
        (m.name.toList ++ ((EnumDecl.valueText expected m.value).toList ++ rest))) =
      some (pair m, rest) := by
  obtain ⟨htake, hdrop⟩ := word_append hname expected hrest
  rw [member?, dropPrefix?_append]
  simp only [Option.bind_eq_bind, Option.bind_some, htake, hdrop, value?_append expected _ hrest,
    String.ofList_toList]
  rfl

/-- The lines of the members are read back. -/
theorem members?_memberLines (margin : String) (closing : List Char) {m : EnumMember}
    {ms : List EnumMember} (hnames : ∀ other ∈ m :: ms, isIdentifier other.name = true)
    (expected : Int64) :
    members? margin.toList closing expected.toInt
        ((EnumDecl.memberLines margin expected (m :: ms)).toList ++ closing) =
      some ((m :: ms).map pair) := by
  induction ms generalizing m expected with
  | nil =>
    have hname := hnames m List.mem_cons_self
    have hends : EndsMember ('\n' :: closing) := .inr rfl
    have hmember := member?_append margin.toList hname expected hends
    have htext : (EnumDecl.memberLines margin expected [m]).toList ++ closing =
        margin.toList ++ (m.name.toList ++
          ((EnumDecl.valueText expected m.value).toList ++ '\n' :: closing)) := by
      simp [EnumDecl.memberLines]
    rw [members?, htext, hmember]
    simp
  | cons next ms ih =>
    obtain ⟨hname, hlater⟩ := List.forall_mem_cons.mp hnames
    let later := EnumDecl.memberLines margin (EnumDef.successor m.value) (next :: ms)
    let more := later.toList ++ closing
    have hends : EndsMember (',' :: '\n' :: more) := .inl rfl
    have hmember := member?_append margin.toList hname expected hends
    have htext : (EnumDecl.memberLines margin expected (m :: next :: ms)).toList ++ closing =
        margin.toList ++ (m.name.toList ++
          ((EnumDecl.valueText expected m.value).toList ++ ',' :: '\n' :: more)) := by
      simp [EnumDecl.memberLines, more, later]
    have hmore : members? margin.toList closing (following (pair m).2) more =
        some ((next :: ms).map pair) := by
      rw [pair, ← toInt_successor]
      exact ih hlater (EnumDef.successor m.value)
    rw [members?, htext, hmember]
    simp only [Option.bind_eq_bind, Option.bind_some]
    rw [if_pos (by simp only [List.length_append, List.length_cons]; omega), hmore]
    rfl

end Members

/-- All members are read back, one line after another, up to the closing brace. -/
theorem body?_memberLines (margin : String) (closing : List Char) {ms : List EnumMember}
    (hnames : ∀ m ∈ ms, isIdentifier m.name = true) :
    body? margin.toList closing ((EnumDecl.memberLines margin 0 ms).toList ++ closing) =
      some (ms.map pair) := by
  unfold body?
  cases ms with
  | nil => simp [EnumDecl.memberLines]
  | cons m ms =>
    have hlonger : (EnumDecl.memberLines margin 0 (m :: ms)).toList ++ closing ≠ closing := by
      rw [ne_eq, List.append_left_eq_self, EnumDecl.memberLines]
      simp
    rw [if_neg hlonger]
    exact members?_memberLines margin closing hnames 0

/-- The text of a declaration is read back, with the members in the order they are written in. -/
theorem read?_text (s : Settings) (level : Nat) {e : EnumDecl}
    (hname : isIdentifier e.definition.name = true)
    (hnames : ∀ m ∈ e.definition.members, isIdentifier m.name = true) :
    read? s level (e.text s level).toList =
      some (e.definition.name, e.definition.sorted.map pair) := by
  let body := (EnumDecl.memberLines (s.margin (level + 1)) 0 e.definition.sorted).toList ++
    (s.closing level).toList
  have htext : (e.text s level).toList =
      "enum ".toList ++ (e.definition.name.toList ++ ((s.opening level).toList ++ body)) := by
    simp [EnumDecl.text, body]
  have hopening : ∀ c ∈ ((s.opening level).toList ++ body).head?, isWordChar c = false := by
    unfold Settings.opening
    split <;> simp <;> decide
  obtain ⟨htake, hdrop⟩ := takeWhile_append_eq (isWordChar_of_isIdentifier hname) hopening
  have hbody : body? (s.margin (level + 1)).toList (s.closing level).toList body =
      some (e.definition.sorted.map pair) :=
    body?_memberLines _ _ fun m hm => hnames m (e.definition.sorted_perm.mem_iff.mp hm)
  rw [read?, htext, dropPrefix?_append]
  simp only [Option.bind_eq_bind, Option.bind_some, htake, hdrop, dropPrefix?_append, hbody,
    String.ofList_toList]
  rfl

end EnumText

namespace EnumDef

/-- Members of equal value stay in the order in which they were defined. -/
theorem filter_sorted (e : EnumDef) (value : Int) :
    e.sorted.filter (·.value.toInt = value) = e.members.filter (·.value.toInt = value) := by
  let equal := e.members.filter (·.value.toInt = value)
  have hascending : equal.Pairwise fun a b => decide (a.value ≤ b.value) = true := by
    refine List.pairwise_of_forall_mem_list fun a ha b hb => ?_
    have ha : a.value.toInt = value := of_decide_eq_true (List.mem_filter.mp ha).2
    have hb : b.value.toInt = value := of_decide_eq_true (List.mem_filter.mp hb).2
    exact decide_eq_true (Int64.le_iff_toInt_le.mpr (Int.le_of_eq (ha.trans hb.symm)))
  have hsub : equal.Sublist e.sorted :=
    List.sublist_mergeSort (fun a b c => by simpa using Int64.le_trans)
      (fun a b => by simpa using Int64.le_total a.value b.value) hascending List.filter_sublist
  have hequal : equal.Sublist (e.sorted.filter (·.value.toInt = value)) := by
    have hfilter := hsub.filter (·.value.toInt = value)
    simpa only [equal, List.filter_filter, Bool.and_self] using hfilter
  refine (hequal.eq_of_length ?_).symm
  exact (e.sorted_perm.filter _).length_eq.symm

end EnumDef

/-- What is read from the text of an enum declaration is its name and its members, none lost and
none added. They are in the order of their values, and members of equal value in the order in which
they were defined. -/
theorem enum_text_reads_back (p : Printer) {e : EnumDecl}
    (hname : isIdentifier e.definition.name = true)
    (hnames : ∀ m ∈ e.definition.members, isIdentifier m.name = true) :
    ∃ text members, (p.run e.steps).text = p.text ++ text ∧
      EnumText.read? p.settings p.level text.toList = some (e.definition.name, members) ∧
      members.Pairwise (·.2 ≤ ·.2) ∧ members.Perm (e.definition.members.map EnumText.pair) ∧
      ∀ value, members.filter (·.2 = value) =
        (e.definition.members.map EnumText.pair).filter (·.2 = value) := by
  obtain ⟨-, -, htext⟩ := Writes.enum e p rfl rfl
  refine ⟨_, _, htext, EnumText.read?_text p.settings p.level hname hnames, ?_, ?_, fun value => ?_⟩
  · exact List.pairwise_map.mpr
      (e.definition.pairwise_sorted.imp fun hle => Int64.le_iff_toInt_le.mp hle)
  · exact e.definition.sorted_perm.map _
  · rw [List.filter_map, List.filter_map]
    exact congrArg (List.map EnumText.pair) (e.definition.filter_sorted value)

namespace Sample

/-- An enum with members below zero, with gaps, and with members of equal value, also of the largest
one. -/
def flags : EnumDecl where
  definition := ⟨"Flags", [⟨"Last", Int64.maxValue⟩, ⟨"Gap", 10⟩, ⟨"None", 0⟩, ⟨"Below", -3⟩,
    ⟨"Next", 11⟩, ⟨"Empty", 0⟩, ⟨"Top", Int64.maxValue⟩]⟩

/-- A text in a block whose braces stand on lines of their own. -/
def indented : Printer where
  settings := { braceOnSameLine := false, indent := "\t" }
  text := "\t"
  level := 1

end Sample

/-- The members are read back by value. Two that have the same value keep their order, and the
successor of the largest value is the largest value. -/
theorem enum_text_reads_back_flags :
    isIdentifier Sample.flags.definition.name = true ∧
      (∀ m ∈ Sample.flags.definition.members, isIdentifier m.name = true) ∧
      ∃ text members, (Sample.indented.run Sample.flags.steps).text = "\t" ++ text ∧
        EnumText.read? Sample.indented.settings 1 text.toList = some ("Flags", members) ∧
        members.Pairwise (·.2 ≤ ·.2) ∧
        members.Perm [("Last", Int64.maxValue.toInt), ("Gap", 10), ("None", 0), ("Below", -3),
          ("Next", 11), ("Empty", 0), ("Top", Int64.maxValue.toInt)] ∧
        members.filter (·.2 = 0) = [("None", 0), ("Empty", 0)] := by
  have hname : isIdentifier Sample.flags.definition.name = true := by decide +kernel
  have hnames : ∀ m ∈ Sample.flags.definition.members, isIdentifier m.name = true := by
    decide +kernel
  obtain ⟨text, members, htext, hread, hsorted, hperm, hequal⟩ :=
    enum_text_reads_back Sample.indented hname hnames
  exact ⟨hname, hnames, text, members, htext, hread, hsorted, hperm, hequal 0⟩

end GmlDecompiler

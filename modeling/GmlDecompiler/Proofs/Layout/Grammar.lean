import GmlDecompiler.Proofs.Codegen.Source
import GmlDecompiler.Tree.Expr

/-!
# The grammar of operators

Operands are joined by operators of ten levels, all of which associate to the left; an operator
with one operand binds tighter than any of them. The grammar is unambiguous: tokens are read
from left to right, with the operators that wait for their right operand on a stack, and every
derivation gives the formula that this reading ends with.
-/

namespace GmlDecompiler

/-- An expression made of operators, each by its symbol. -/
inductive Formula where
  /-- An operand without operators. -/
  | atom (text : String)
  /-- An operator with one operand. -/
  | unary (symbol : String) (operand : Formula)
  /-- An operator with two operands. -/
  | binary (symbol : String) (left right : Formula)
  deriving DecidableEq

/-- The instruction is an operator with two operands. A comparison says what it tests. -/
def Instruction.IsBinary (i : Instruction) : Prop :=
  i.opcode.isBinary = true ∧ (i.opcode = .compare → i.comparison.isSome = true)

instance (i : Instruction) : Decidable i.IsBinary :=
  inferInstanceAs (Decidable (_ ∧ _))

/-- The character may stand anywhere in an identifier but at its start. -/
def isWordChar (c : Char) : Bool :=
  c.isAlphanum || c == '_'

/-- The text is an identifier. -/
def isIdentifier (text : String) : Bool :=
  match text.toList with
  | [] => false
  | c :: cs => (c.isAlpha || c == '_') && cs.all isWordChar

namespace Grammar

/-- The token is an integer or an identifier. -/
def IsAtom (token : String) : Prop :=
  (∃ value : Int, token = toString value) ∨ isIdentifier token = true

/-- The token is an operator with one operand. -/
def IsUnary (token : String) : Prop :=
  ∃ i : Instruction, i.opcode.isUnary = true ∧ i.unarySymbol = token

/-- The token is an operator with two operands, of a level. -/
def IsBinary (token : String) (level : Nat) : Prop :=
  ∃ i : Instruction, i.IsBinary ∧ i.operator = ⟨token, level⟩

/-- The level above those of all operators with two operands. -/
def tightest : Nat := 11

/-- Tokens derive a formula whose outermost operator, unless it is in parentheses, has at least
the given level. The left operand of an operator may have its level, the right one not. -/
inductive Derives : Nat → List String → Formula → Prop
  | atom {n : Nat} {token : String} (htoken : IsAtom token) : Derives n [token] (.atom token)
  | unary {n : Nat} {symbol : String} {ts : List String} {t : Formula} (hsymbol : IsUnary symbol)
      (ht : Derives tightest ts t) : Derives n (symbol :: ts) (.unary symbol t)
  | binary {n level : Nat} {symbol : String} {ts us : List String} {t u : Formula}
      (hsymbol : IsBinary symbol level) (hlevel : n ≤ level) (ht : Derives level ts t)
      (hu : Derives (level + 1) us u) : Derives n (ts ++ symbol :: us) (.binary symbol t u)
  | group {n : Nat} {ts : List String} {t : Formula} (ht : Derives 1 ts t) :
      Derives n ("(" :: ts ++ [")"]) t

/-- What is derived at a level is derived at the levels below. -/
theorem Derives.lower {m n : Nat} {ts : List String} {t : Formula} (hmn : m ≤ n)
    (ht : Derives n ts t) : Derives m ts t := by
  cases ht with
  | atom htoken => exact .atom htoken
  | unary hsymbol ht => exact .unary hsymbol ht
  | binary hsymbol hlevel ht hu => exact .binary hsymbol (by omega) ht hu
  | group ht => exact .group ht

/-- An atom has a letter, a digit or an underscore in it. -/
theorem IsAtom.exists_wordChar {token : String} (htoken : IsAtom token) :
    ∃ c ∈ token.toList, isWordChar c = true := by
  rcases htoken with ⟨value, rfl⟩ | htoken
  · have hdigits (n : Nat) : ∃ c ∈ n.repr.toList, isWordChar c = true := by
      rw [Nat.toList_repr]
      obtain ⟨c, cs, hcs⟩ := List.exists_cons_of_ne_nil (Nat.toDigits_ne_nil (n := n) (b := 10))
      have hc : c ∈ Nat.toDigits 10 n := by simp [hcs]
      refine ⟨c, hc, ?_⟩
      simp [isWordChar, Char.isAlphanum, Nat.isDigit_of_mem_toDigits (by omega) (by omega) hc]
    cases value with
    | ofNat n => exact hdigits n
    | negSucc n =>
      obtain ⟨c, hc, hword⟩ := hdigits (n + 1)
      have htoken : toString (Int.negSucc n) = "-" ++ (n + 1).repr := rfl
      refine ⟨c, ?_, hword⟩
      rw [htoken, String.toList_append]
      exact List.mem_append_right _ hc
  · unfold isIdentifier at htoken
    split at htoken
    · cases htoken
    · rename_i c cs hcs
      refine ⟨c, by simp [hcs], ?_⟩
      simp only [Bool.and_eq_true, Bool.or_eq_true] at htoken
      rcases htoken.1 with halpha | hunderscore
      · simp [isWordChar, Char.isAlphanum, halpha]
      · simp [isWordChar, hunderscore]

/-- Whether a token is an operator with one operand. -/
def isUnary (token : String) : Bool :=
  token == "-" || token == "!" || token == "~"

/-- The reader knows a token for an operator with one operand. -/
theorem IsUnary.isUnary_eq_true {token : String} (htoken : IsUnary token) :
    isUnary token = true := by
  obtain ⟨i, -, rfl⟩ := htoken
  unfold Instruction.unarySymbol
  split
  · rfl
  · split <;> rfl

/-- An operator with one operand is no other token. -/
theorem IsUnary.ne {token : String} (htoken : IsUnary token) (symbol : String)
    (hsymbol : isUnary symbol = false) : token ≠ symbol := by
  rintro rfl
  exact Bool.false_ne_true (hsymbol.symm.trans htoken.isUnary_eq_true)

/-- An atom is no token without letters, digits and underscores. -/
theorem IsAtom.ne {token : String} (htoken : IsAtom token) (symbol : String)
    (hsymbol : symbol.toList.all (!isWordChar ·) = true) : token ≠ symbol := by
  rintro rfl
  obtain ⟨c, hc, hword⟩ := htoken.exists_wordChar
  simpa [hword] using List.all_eq_true.mp hsymbol c hc

/-- The reader does not take an atom for an operator. -/
theorem IsAtom.isUnary_eq_false {token : String} (htoken : IsAtom token) :
    isUnary token = false := by
  simp [isUnary, htoken.ne "-" (by decide), htoken.ne "!" (by decide),
    htoken.ne "~" (by decide)]

/-- The operators with two operands. -/
def operators : List Operator :=
  [⟨"||", 1⟩, ⟨"^^", 2⟩, ⟨"&&", 3⟩, ⟨"<", 4⟩, ⟨"<=", 4⟩, ⟨"==", 4⟩, ⟨"!=", 4⟩, ⟨">=", 4⟩,
    ⟨">", 4⟩, ⟨"|", 5⟩, ⟨"^", 6⟩, ⟨"&", 7⟩, ⟨"<<", 8⟩, ⟨">>", 8⟩, ⟨"+", 9⟩, ⟨"-", 9⟩, ⟨"*", 10⟩,
    ⟨"/", 10⟩, ⟨"div", 10⟩, ⟨"%", 10⟩]

/-- The level of an operator with two operands. -/
def level? (token : String) : Option Nat :=
  (operators.find? (·.symbol == token)).map (·.strength)

/-- The operator of an instruction is one of the operators. -/
theorem operator_mem_operators {i : Instruction} (hi : i.IsBinary) : i.operator ∈ operators := by
  obtain ⟨hopcode, hcomparison⟩ := hi
  cases hop : i.opcode <;> simp only [hop, Opcode.isBinary, Bool.false_eq_true] at hopcode
  case compare =>
    obtain ⟨comparison, hsome⟩ := Option.isSome_iff_exists.mp (hcomparison hop)
    cases comparison <;> simp [Instruction.operator, hop, hsome, Comparison.symbol, operators]
  case or | xor | and =>
    cases hlogical : i.isLogical <;> simp [Instruction.operator, hop, hlogical, operators]
  all_goals simp [Instruction.operator, hop, operators]

/-- An operator with two operands is in the table of the reader, with its level. -/
theorem IsBinary.mem_operators {token : String} {level : Nat} (htoken : IsBinary token level) :
    ⟨token, level⟩ ∈ operators := by
  obtain ⟨i, hi, hoperator⟩ := htoken
  exact hoperator ▸ operator_mem_operators hi

/-- No symbol has two levels. -/
theorem IsBinary.level?_eq {token : String} {level : Nat} (htoken : IsBinary token level) :
    level? token = some level := by
  have hall : ∀ o ∈ operators, level? o.symbol = some o.strength := by decide
  exact hall _ htoken.mem_operators

/-- Every operator with two operands binds less tightly than those with one. -/
theorem IsBinary.level_lt {token : String} {level : Nat} (htoken : IsBinary token level) :
    level < tightest := by
  have hall : ∀ o ∈ operators, o.strength < tightest := by decide
  exact hall _ htoken.mem_operators

/-- The least tight operators have level one. -/
theorem IsBinary.level_pos {token : String} {level : Nat} (htoken : IsBinary token level) :
    0 < level := by
  have hall : ∀ o ∈ operators, 0 < o.strength := by decide
  exact hall _ htoken.mem_operators

/-- An operator with two operands is no token that the table does not have. -/
theorem IsBinary.ne {token : String} {level : Nat} (htoken : IsBinary token level)
    (symbol : String) (hsymbol : ∀ o ∈ operators, o.symbol ≠ symbol) : token ≠ symbol :=
  hsymbol _ htoken.mem_operators

/-- What waits for the operand that is being read. -/
inductive Frame where
  /-- A parenthesis that is open. -/
  | opened
  /-- An operator with one operand. -/
  | unary (symbol : String)
  /-- An operator with two operands, and its left one. -/
  | binary (left : Formula) (symbol : String) (level : Nat)

/-- An operand ends the operators with one operand that stand before it. -/
def complete : List Frame → Formula → List Frame × Formula
  | .unary symbol :: frames, t => complete frames (.unary symbol t)
  | frames, t => (frames, t)

/-- An operand ends the operators with two operands before it that have at least a level. -/
def reduce (n : Nat) : List Frame → Formula → List Frame × Formula
  | .binary left symbol level :: frames, t =>
    if n ≤ level then reduce n frames (.binary symbol left t)
    else (.binary left symbol level :: frames, t)
  | frames, t => (frames, t)

/-- Tokens read so far: before an operand, or after one. -/
inductive Parse where
  | before (frames : List Frame)
  | after (frames : List Frame) (operand : Formula)

/-- A parenthesis closed. -/
def Parse.close : List Frame × Formula → Parse
  | (.opened :: frames, t) => .after (complete frames t).1 (complete frames t).2
  | (frames, t) => .after frames t

/-- The next token. Whether a minus has one operand or two is told by where it stands. -/
def Parse.read : Parse → String → Parse
  | .before frames, token =>
    if token = "(" then .before (.opened :: frames)
    else if isUnary token then .before (.unary token :: frames)
    else .after (complete frames (.atom token)).1 (complete frames (.atom token)).2
  | .after frames t, token =>
    if token = ")" then .close (reduce 0 frames t)
    else
      match level? token with
      | some level =>
        .before (.binary (reduce level frames t).2 token level :: (reduce level frames t).1)
      | none => .after frames t

/-- Several tokens. -/
def Parse.readAll (p : Parse) (tokens : List String) : Parse :=
  tokens.foldl read p

/-- Tokens are read from the left. -/
theorem Parse.readAll_cons (p : Parse) (token : String) (tokens : List String) :
    p.readAll (token :: tokens) = (p.read token).readAll tokens := rfl

/-- Tokens may be read in two parts. -/
theorem Parse.readAll_append (p : Parse) (first second : List String) :
    p.readAll (first ++ second) = (p.readAll first).readAll second :=
  List.foldl_append

/-- Reducing to a level and then further is reducing further. -/
theorem reduce_reduce {m n : Nat} (hmn : m ≤ n) (frames : List Frame) (t : Formula) :
    reduce m (reduce n frames t).1 (reduce n frames t).2 = reduce m frames t := by
  induction frames generalizing t with
  | nil => rfl
  | cons frame frames ih =>
    cases frame with
    | opened | unary => rfl
    | binary left symbol level =>
      by_cases hlevel : n ≤ level
      · have hbelow : m ≤ level := by omega
        simp only [reduce, if_pos hlevel, if_pos hbelow]
        exact ih _
      · simp only [reduce, if_neg hlevel]

/-- Nothing on top of the stack goes with an operand of a level: no operator with one operand,
and none with two operands of that level or above. -/
def Clear (n : Nat) : List Frame → Prop
  | .unary _ :: _ => False
  | .binary _ _ level :: _ => level < n
  | _ => True

/-- Where nothing goes with an operand of a level, nothing goes with one of a higher level. -/
theorem Clear.raise {m n : Nat} (hmn : m ≤ n) {frames : List Frame} (hframes : Clear m frames) :
    Clear n frames := by
  match frames with
  | [] | .opened :: _ => trivial
  | .binary _ _ _ :: _ => exact Nat.lt_of_lt_of_le hframes hmn

/-- Where nothing goes with an operand, no operator with one operand ends. -/
theorem Clear.complete_eq {n : Nat} {frames : List Frame} (hframes : Clear n frames)
    (t : Formula) : complete frames t = (frames, t) := by
  match frames with
  | [] | .opened :: _ | .binary _ _ _ :: _ => rfl

/-- Where nothing goes with an operand of a level, no operator of that level or above ends. -/
theorem Clear.reduce_eq {n : Nat} {frames : List Frame} (hframes : Clear n frames)
    (t : Formula) : reduce n frames t = (frames, t) := by
  match frames with
  | [] | .opened :: _ => rfl
  | .binary _ _ level :: _ =>
    have hlevel : ¬ n ≤ level := Nat.not_le_of_lt hframes
    simp only [reduce, if_neg hlevel]

/-- Reading a derivation gives the derived formula, up to operators of its level that have not
ended yet; a formula of the tightest level ends at once. -/
def Reads (n : Nat) (tokens : List String) (t : Formula) : Prop :=
  (tightest ≤ n → ∀ frames, (Parse.before frames).readAll tokens =
    .after (complete frames t).1 (complete frames t).2) ∧
  ∀ frames, Clear n frames → ∃ frames' t', (Parse.before frames).readAll tokens =
    .after frames' t' ∧ reduce n frames' t' = (frames, t)

/-- A formula that ends at once is read at every level. -/
theorem Reads.of_readAll {n : Nat} {tokens : List String} {t : Formula}
    (hread : ∀ frames, (Parse.before frames).readAll tokens =
      .after (complete frames t).1 (complete frames t).2) : Reads n tokens t := by
  refine ⟨fun _ => hread, ?_⟩
  intro frames hframes
  refine ⟨frames, t, ?_, hframes.reduce_eq t⟩
  rw [hread, hframes.complete_eq]

/-- Every derivation is read. -/
theorem Derives.reads {n : Nat} {tokens : List String} {t : Formula}
    (ht : Derives n tokens t) : Reads n tokens t := by
  induction ht with
  | atom htoken =>
    apply Reads.of_readAll
    intro frames
    have hopen := htoken.ne "(" (by decide)
    simp [Parse.readAll, Parse.read, hopen, htoken.isUnary_eq_false]
  | @unary n symbol ts t hsymbol _ ih =>
    apply Reads.of_readAll
    intro frames
    have hopen := hsymbol.ne "(" (by decide)
    have hfirst : (Parse.before frames).read symbol = .before (.unary symbol :: frames) := by
      simp [Parse.read, hopen, hsymbol.isUnary_eq_true]
    rw [Parse.readAll_cons, hfirst]
    exact ih.1 (Nat.le_refl _) (.unary symbol :: frames)
  | @binary n level symbol ts us t u hsymbol hlevel _ _ iht ihu =>
    refine ⟨fun htight => ?_, fun frames hframes => ?_⟩
    · -- no operator with two operands has the tightest level
      have hlt := hsymbol.level_lt
      omega
    · have hclose := hsymbol.ne ")" (by decide)
      obtain ⟨frames₁, t₁, hread₁, hreduce₁⟩ := iht.2 frames (hframes.raise hlevel)
      have hoperator : (Parse.after frames₁ t₁).read symbol =
          .before (.binary t symbol level :: frames) := by
        simp [Parse.read, hclose, hsymbol.level?_eq, hreduce₁]
      obtain ⟨frames₂, t₂, hread₂, hreduce₂⟩ :=
        ihu.2 (.binary t symbol level :: frames) (Nat.lt_succ_self level)
      refine ⟨frames₂, t₂, ?_, ?_⟩
      · rw [Parse.readAll_append, hread₁, Parse.readAll_cons, hoperator, hread₂]
      · have hbelow : n ≤ level + 1 := by omega
        rw [← reduce_reduce hbelow, hreduce₂]
        simp only [reduce, if_pos hlevel]
        exact hframes.reduce_eq _
  | @group n ts t _ ih =>
    apply Reads.of_readAll
    intro frames
    obtain ⟨frames', t', hread, hreduce⟩ := ih.2 (.opened :: frames) trivial
    have hall : reduce 0 frames' t' = (.opened :: frames, t) := by
      rw [← reduce_reduce (Nat.zero_le 1), hreduce]
      rfl
    have hfirst : (Parse.before frames).read "(" = .before (.opened :: frames) := rfl
    have hlast : (Parse.after frames' t').read ")" = .close (reduce 0 frames' t') := rfl
    rw [List.cons_append, Parse.readAll_cons, hfirst, Parse.readAll_append, hread,
      Parse.readAll_cons, hlast, hall]
    rfl

/-- Tokens derive at most one formula. -/
theorem Derives.unique {tokens : List String} {t u : Formula} (ht : Derives 1 tokens t)
    (hu : Derives 1 tokens u) : t = u := by
  obtain ⟨frames₁, t₁, hread₁, hreduce₁⟩ := ht.reads.2 [] trivial
  obtain ⟨frames₂, t₂, hread₂, hreduce₂⟩ := hu.reads.2 [] trivial
  obtain ⟨rfl, rfl⟩ := Parse.after.inj (hread₁.symm.trans hread₂)
  exact congrArg Prod.snd (hreduce₁.symm.trans hreduce₂)

end Grammar

end GmlDecompiler

import GmlDecompiler.Program
import GmlDecompiler.Proofs.Layout.Operators
import GmlDecompiler.Proofs.Naming.Tidying

/-!
# Reading chains of conditions

The text of an expression shows the operators that it has outside of parentheses; everything else in
it stands between two of them. A reader who knows how tightly operators bind finds the conditions of
a chain by splitting its text at the operators that bind as the chain's own does, provided that none
binds less tightly. The conditions that are chains are in parentheses, but no other condition is put
in any. So what is read are the conditions of the chain, exactly if every operator that one of them
shows binds more tightly than the chain's.
-/

namespace GmlDecompiler

/-- A part of the text of an expression. -/
inductive Lexeme where
  /-- Text without an operator outside of parentheses. -/
  | text (steps : List Step)
  /-- An operator between two operands. -/
  | operator (operator : Operator)

namespace Lexeme

/-- The steps that write the part. -/
def steps : Lexeme → List Step
  | .text steps => steps
  | .operator o => [.write " ", .write o.symbol, .write " "]

/-- The part is an operator that binds less tightly than another one. -/
def isLooser (o : Operator) : Lexeme → Bool
  | .text _ => false
  | .operator o' => o'.strength < o.strength

/-- The part is an operator that binds as tightly as another one. -/
def isLevel (o : Operator) : Lexeme → Bool
  | .text _ => false
  | .operator o' => o'.strength == o.strength

/-- What a reader finds between the operators that bind as tightly as a given one; nothing if an
operator that binds less tightly splits the text before. -/
def read (o : Operator) (text : List Lexeme) : Option (List (List Lexeme)) :=
  if text.any (isLooser o) then none else some (text.splitOnP (isLevel o))

end Lexeme

mutual

/-- The parts of the text of an expression. -/
def Expr.lexemes : Expr → Except Fault (List Lexeme)
  | ⟨shape, _, grouped, _⟩ =>
    if grouped then do
      let steps ← shape.steps
      return [.text (parenthesize true steps)]
    else shape.lexemes

/-- The parts of the text of a shape. -/
def Shape.lexemes : Shape → Except Fault (List Lexeme)
  | .access a => a.lexemes
  | .unary operator operand => do
    let operand ← operand.lexemes
    return .text [.write operator.unarySymbol] :: operand
  | .binary operator left right => do
    let left ← left.lexemes
    let right ← right.lexemes
    return left ++ .operator operator.operator :: right
  | .callValue callee _ arguments => do
    let callee ← callee.lexemes
    let arguments ← separatedSteps [.write ", "] arguments
    return callee ++ [.text ([.write "("] ++ arguments ++ [.write ")"])]
  | .construct callee arguments =>
    if callee.isPlainConstructor then do
      let callee ← callee.lexemes
      let arguments ← separatedSteps [.write ", "] arguments
      return .text [.write "new "] :: callee
        ++ [.text ([.write "("] ++ arguments ++ [.write ")"])]
    else .error (.unprintable .computedConstructor)
  | .chain logic conditions => do
    let conditions ← lexemesOfAll conditions
    return [Lexeme.operator logic.operator].intercalate conditions
  | shape => do
    let steps ← shape.steps
    return [.text steps]

/-- The parts of the text of a variable access. -/
def Access.lexemes : Access → Except Fault (List Lexeme)
  | ⟨_, _, _, _, _, some name⟩ => .ok [.text [.write name]]
  | ⟨target, _, owner, indices, _, none⟩ => do
    let owner ←
      match owner.instance? with
      | some value =>
        if value.isImplicit then pure [] else pure [.text [.write value.text, .write "."]]
      | none => do
        let owner ← owner.lexemes
        pure (owner ++ [.text [.write "."]])
    let indices ← indexSteps indices
    return owner ++ [.text (.write target.name :: indices)]

/-- The parts of the texts of several expressions. -/
def lexemesOfAll : List Expr → Except Fault (List (List Lexeme))
  | [] => .ok []
  | e :: es => do
    let first ← e.lexemes
    let rest ← lexemesOfAll es
    return first :: rest

end

/-- The parts make up the text. -/
abbrev SpellsOut (parts : Except Fault (List Lexeme)) (steps : Except Fault (List Step)) : Prop :=
  Mirrors (·.flatMap Lexeme.steps) parts steps

/-- The lexemes of several expressions are those of each of them. -/
theorem map_lexemes_of_lexemesOfAll {es : List Expr} {parts : List (List Lexeme)}
    (hparts : lexemesOfAll es = .ok parts) : es.map Expr.lexemes = parts.map Except.ok := by
  induction es generalizing parts with
  | nil =>
    cases hparts
    rfl
  | cons e es ih =>
    obtain ⟨first, hfirst, hparts⟩ := exists_of_bind_eq_ok hparts
    obtain ⟨rest, hrest, hparts⟩ := exists_of_bind_eq_ok hparts
    cases hparts
    rw [List.map_cons, List.map_cons, hfirst, ih hrest]

/-- There are parts if there is an expression. -/
theorem ne_nil_of_lexemesOfAll {es : List Expr} {parts : List (List Lexeme)}
    (hparts : lexemesOfAll es = .ok parts) (hes : es ≠ []) : parts ≠ [] := by
  rintro rfl
  have hmap := map_lexemes_of_lexemesOfAll hparts
  exact hes (List.map_eq_nil_iff.mp hmap)

/-- A text without operators is one part. -/
theorem SpellsOut.text (steps : Except Fault (List Step)) :
    SpellsOut (steps >>= fun steps => pure [.text steps]) steps := by
  cases steps with
  | error fault => rfl
  | ok steps => simp [Mirrors, Except.map, bind, Except.bind, Lexeme.steps]

mutual

/-- The parts of the text of an expression make up its text. -/
theorem Expr.spellsOut_lexemes (e : Expr) : SpellsOut e.lexemes e.steps := by
  match e with
  | ⟨shape, _, true, _⟩ =>
    refine (Mirrors.refl shape.steps).bind fun steps => .ok ?_
    simp [Lexeme.steps]
  | ⟨shape, duplicated, false, slot⟩ =>
    have hsteps : Expr.steps ⟨shape, duplicated, false, slot⟩ = shape.steps :=
      bind_pure shape.steps
    rw [hsteps]
    exact shape.spellsOut_lexemes

/-- The steps of a shape are its lexemes spelled out. -/
theorem Shape.spellsOut_lexemes (shape : Shape) : SpellsOut shape.lexemes shape.steps := by
  match shape with
  | .access a => exact a.spellsOut_lexemes
  | .unary operator operand =>
    refine operand.spellsOut_lexemes.bind fun parts => .ok ?_
    simp [Lexeme.steps]
  | .binary operator left right =>
    refine left.spellsOut_lexemes.bind fun leftParts => ?_
    refine right.spellsOut_lexemes.bind fun rightParts => .ok ?_
    simp [Lexeme.steps]
  | .callValue callee _ arguments =>
    refine callee.spellsOut_lexemes.bind fun parts => ?_
    refine (Mirrors.refl _).bind fun steps => .ok ?_
    simp [Lexeme.steps]
  | .construct callee arguments =>
    unfold Shape.lexemes Shape.steps
    split
    · refine callee.spellsOut_lexemes.bind fun parts => ?_
      refine (Mirrors.refl _).bind fun steps => .ok ?_
      simp [Lexeme.steps]
    · exact .error _
  | .chain logic conditions =>
    have hconditions := lexemesOfAll_spellsOut logic.operator conditions
    have hsteps := (bind_pure (separatedSteps
      [.write " ", .write logic.operator.symbol, .write " "] conditions)).symm
    rw [Shape.steps, hsteps]
    exact hconditions.bind fun parts => .ok rfl
  | .int16 _ | .int32 _ | .int64 _ | .double _ | .string _ | .boolean _ | .keyword _
  | .function _ | .constant _ | .call _ _ | .routine _ | .struct _ => exact SpellsOut.text _

/-- The steps of an access are its lexemes spelled out. -/
theorem Access.spellsOut_lexemes (a : Access) : SpellsOut a.lexemes a.steps := by
  match a with
  | ⟨_, _, _, _, _, some name⟩ => exact .ok rfl
  | ⟨target, _, owner, indices, _, none⟩ =>
    have hrest (parts : List Lexeme) :
        SpellsOut (indexSteps indices >>= fun steps =>
            pure (parts ++ [.text (.write target.name :: steps)]))
          (indexSteps indices >>= fun steps =>
            pure (parts.flatMap Lexeme.steps ++ .write target.name :: steps)) := by
      refine (Mirrors.refl _).bind fun steps => .ok ?_
      simp [Lexeme.steps]
    unfold Access.lexemes Access.steps
    cases owner.instance? with
    | some value =>
      by_cases himplicit : value.isImplicit = true
      · simp only [himplicit, if_true]
        exact hrest []
      · simp only [himplicit]
        exact hrest [.text [.write value.text, .write "."]]
    | none =>
      refine owner.spellsOut_lexemes.bind fun parts => ?_
      have howner := hrest (parts ++ [.text [.write "."]])
      rwa [List.flatMap_append] at howner

/-- The steps of a chain are the lexemes of its conditions, with the operator between them, spelled
out. -/
theorem lexemesOfAll_spellsOut (o : Operator) (es : List Expr) :
    Mirrors (fun parts => ([Lexeme.operator o].intercalate parts).flatMap Lexeme.steps)
      (lexemesOfAll es) (separatedSteps [.write " ", .write o.symbol, .write " "] es) := by
  match es with
  | [] => exact .ok rfl
  | [e] =>
    have hsteps : e.steps = e.steps >>= fun steps => pure steps := (bind_pure e.steps).symm
    rw [separatedSteps, hsteps]
    refine e.spellsOut_lexemes.bind fun parts => ?_
    exact .ok (by simp)
  | e :: e' :: es =>
    refine e.spellsOut_lexemes.bind fun parts => ?_
    have hrest := lexemesOfAll_spellsOut o (e' :: es)
    cases hparts : lexemesOfAll (e' :: es) with
    | error fault =>
      rw [hparts] at hrest
      rw [hrest]
      exact .error fault
    | ok rest =>
      have hnil : rest ≠ [] := ne_nil_of_lexemesOfAll hparts (List.cons_ne_nil e' es)
      rw [hparts] at hrest
      rw [hrest]
      refine .ok ?_
      simp [List.intercalate_cons_of_ne_nil hnil, Lexeme.steps]

end

/-- A shape that has a text has the parts of the text. -/
theorem exists_lexemes_of_steps {shape : Shape} {written : List Step}
    (hwritten : shape.steps = .ok written) :
    ∃ text, shape.lexemes = .ok text ∧ written = text.flatMap Lexeme.steps := by
  have hsame : shape.steps = shape.lexemes.map (·.flatMap Lexeme.steps) := shape.spellsOut_lexemes
  rw [hwritten] at hsame
  cases hlexemes : shape.lexemes with
  | error fault =>
    rw [hlexemes] at hsame
    cases hsame
  | ok text =>
    rw [hlexemes] at hsame
    exact ⟨text, rfl, Except.ok.inj hsame⟩

/-- Nothing that a text is split at is left in the parts. -/
theorem eq_false_of_mem_splitOnP {α : Type} {p : α → Bool} {xs part : List α}
    (hpart : part ∈ xs.splitOnP p) : ∀ x ∈ part, p x = false := by
  induction xs generalizing part with
  | nil =>
    obtain rfl : part = [] := by simpa using hpart
    simp
  | cons x xs ih =>
    rw [List.splitOnP_cons_eq_if_modifyHead] at hpart
    by_cases hx : p x = true
    · rw [if_pos hx] at hpart
      rcases List.mem_cons.mp hpart with rfl | hpart
      · simp
      · exact ih hpart
    · rw [if_neg hx] at hpart
      cases hparts : xs.splitOnP p with
      | nil => exact absurd hparts (List.splitOnP_ne_nil p xs)
      | cons first rest =>
        rw [hparts] at hpart ih
        rcases List.mem_cons.mp hpart with rfl | hpart
        · have hfirst := ih (List.mem_cons_self)
          simpa [hx] using hfirst
        · exact ih (List.mem_cons_of_mem _ hpart)

/-- What holds of a separator holds all over joined parts, exactly if it holds all over each of
them. -/
theorem forall_mem_intercalate_iff {α : Type} {P : α → Prop} {separator : α} (hP : P separator)
    (parts : List (List α)) :
    (∀ x ∈ [separator].intercalate parts, P x) ↔ ∀ part ∈ parts, ∀ x ∈ part, P x := by
  induction parts with
  | nil => simp
  | cons first rest ih =>
    rcases eq_or_ne rest [] with rfl | hrest
    · simp
    · rw [List.intercalate_cons_of_ne_nil hrest, List.forall_mem_append, List.forall_mem_append,
        List.forall_mem_cons, ih]
      simp [hP]

/-- Joined parts are split where they were joined, if none of them is split itself. -/
theorem splitOnP_intercalate {α : Type} {p : α → Bool} {separator : α}
    (hseparator : p separator = true) {parts : List (List α)} (hnil : parts ≠ [])
    (hparts : ∀ part ∈ parts, ∀ x ∈ part, p x = false) :
    ([separator].intercalate parts).splitOnP p = parts := by
  induction parts with
  | nil => exact absurd rfl hnil
  | cons first rest ih =>
    obtain ⟨hfirst, hothers⟩ := List.forall_mem_cons.mp hparts
    rcases eq_or_ne rest [] with rfl | hrest
    · rw [List.intercalate_singleton, List.splitOnP_eq_singleton hfirst]
    · rw [List.intercalate_cons_of_ne_nil hrest, List.append_assoc, List.singleton_append,
        List.splitOnP_append_cons_of_forall_mem hfirst separator hseparator, ih hrest hothers]

namespace Lexeme

/-- A text is read as a chain exactly if none of its operators binds less tightly, and the parts are
those between the operators of the level. -/
theorem read_eq_some_iff {o : Operator} {text : List Lexeme} {parts : List (List Lexeme)} :
    read o text = some parts ↔
      (∀ l ∈ text, isLooser o l = false) ∧ text.splitOnP (isLevel o) = parts := by
  unfold read
  by_cases hlooser : text.any (isLooser o) = true
  · obtain ⟨l, hl, hlower⟩ := List.any_eq_true.mp hlooser
    rw [if_pos hlooser]
    refine ⟨fun h => (nomatch h), fun ⟨hall, _⟩ => ?_⟩
    cases (hall l hl).symm.trans hlower
  · rw [if_neg hlooser, Option.some_inj]
    have hall : ∀ l ∈ text, isLooser o l = false := by simpa using hlooser
    exact (and_iff_right hall).symm

/-- An operator that binds neither less tightly than another one nor as tightly binds more
tightly. -/
theorem isLooser_and_isLevel_eq_false_iff {o : Operator} {l : Lexeme} :
    (isLooser o l = false ∧ isLevel o l = false) ↔
      ∀ o', l = .operator o' → o.strength < o'.strength := by
  cases l with
  | text steps => simp [isLooser, isLevel]
  | operator o' =>
    simp only [isLooser, isLevel, Lexeme.operator.injEq, forall_eq', decide_eq_false_iff_not,
      beq_eq_false_iff_ne]
    omega

/-- Joined parts are read, exactly if every operator in them binds more tightly than the one between
them. -/
theorem read_intercalate_eq_some_iff {o : Operator} {parts : List (List Lexeme)}
    (hparts : parts ≠ []) :
    read o ([Lexeme.operator o].intercalate parts) = some parts ↔
      ∀ part ∈ parts, ∀ o', .operator o' ∈ part → o.strength < o'.strength := by
  have hlevel : isLevel o (.operator o) = true := by simp [isLevel]
  have hlooser : isLooser o (.operator o) = false := by simp [isLooser]
  have hsplit : ([Lexeme.operator o].intercalate parts).splitOnP (isLevel o) = parts ↔
      ∀ part ∈ parts, ∀ l ∈ part, isLevel o l = false := by
    refine ⟨fun hsame part hpart => ?_, splitOnP_intercalate hlevel hparts⟩
    rw [← hsame] at hpart
    exact eq_false_of_mem_splitOnP hpart
  rw [read_eq_some_iff, forall_mem_intercalate_iff (P := fun l => isLooser o l = false) hlooser,
    hsplit]
  constructor
  · rintro ⟨hnoLooser, hnoLevel⟩ part hpart o' ho'
    exact isLooser_and_isLevel_eq_false_iff.mp
      ⟨hnoLooser part hpart _ ho', hnoLevel part hpart _ ho'⟩ o' rfl
  · intro htighter
    have hboth (part : List Lexeme) (hpart : part ∈ parts) (l : Lexeme) (hl : l ∈ part) :
        isLooser o l = false ∧ isLevel o l = false :=
      isLooser_and_isLevel_eq_false_iff.mpr fun o' ho' => htighter part hpart o' (ho' ▸ hl)
    exact ⟨fun part hpart l hl => (hboth part hpart l hl).1,
      fun part hpart l hl => (hboth part hpart l hl).2⟩

end Lexeme

/-- The expression shows an operator outside of parentheses. -/
def Expr.Shows (e : Expr) (o : Operator) : Prop :=
  ∃ text, e.lexemes = .ok text ∧ .operator o ∈ text

/-- The chain can be read: a condition whose operator binds less tightly than that of the chain is
in parentheses, and what a reader finds in the text of the chain are the texts of the conditions. -/
structure ReadBack (logic : Logic) (conditions : List Expr) (text : List Lexeme)
    (parts : List (List Lexeme)) : Prop where
  grouped : ∀ e ∈ conditions, ∀ strength, e.strength? = some strength →
    strength < logic.operator.strength → e.grouped = true
  read : Lexeme.read logic.operator text = some parts

/-- An operation that is not in parentheses shows its operator. -/
theorem Expr.shows_of_binary {e : Expr} {i : Instruction} {left right : Expr} {text : List Lexeme}
    (htext : e.lexemes = .ok text) (hshape : e.shape = .binary i left right)
    (hgrouped : e.grouped = false) : e.Shows i.operator := by
  obtain ⟨shape, duplicated, grouped, slot⟩ := e
  obtain rfl : shape = .binary i left right := hshape
  obtain rfl : grouped = false := hgrouped
  refine ⟨text, htext, ?_⟩
  obtain ⟨leftText, -, htext⟩ := exists_of_bind_eq_ok htext
  obtain ⟨rightText, -, htext⟩ := exists_of_bind_eq_ok htext
  cases htext
  simp

/-- A condition that is a chain itself is put in parentheses. -/
theorem Config.grouped_groupCondition {e : Expr} {logic : Logic} {conditions : List Expr}
    (hshape : (groupCondition e).shape = .chain logic conditions) :
    (groupCondition e).grouped = true := by
  unfold groupCondition at hshape ⊢
  split at hshape
  · simp [Expr.groupIf]
  · rename_i hchain
    exact absurd hshape (hchain _ _)

/-- The operators in the parts of the texts of expressions are those that the expressions show. -/
theorem forall_shows_iff {es : List Expr} {parts : List (List Lexeme)}
    (hparts : lexemesOfAll es = .ok parts) (P : Operator → Prop) :
    (∀ part ∈ parts, ∀ o, .operator o ∈ part → P o) ↔ ∀ e ∈ es, ∀ o, e.Shows o → P o := by
  have hpart (part : List Lexeme) : part ∈ parts ↔ ∃ e ∈ es, e.lexemes = .ok part := by
    rw [← List.mem_map (f := Expr.lexemes), map_lexemes_of_lexemesOfAll hparts]
    simp
  constructor
  · rintro hall e he o ⟨text, htext, ho⟩
    exact hall text ((hpart text).mpr ⟨e, he, htext⟩) o ho
  · intro hall part hmem o ho
    obtain ⟨e, he, htext⟩ := (hpart part).mp hmem
    exact hall e he o ⟨part, htext, ho⟩

/-- If all operators that a condition shows bind more tightly than some strength, and its own one
does not, then the condition is in parentheses. -/
theorem Config.grouped_of_shows {e : Expr} {text : List Lexeme} {strength own : Nat}
    (htext : (groupCondition e).lexemes = .ok text)
    (hshows : ∀ o, (groupCondition e).Shows o → strength < o.strength)
    (hown : (groupCondition e).strength? = some own) (hlooser : own < strength) :
    (groupCondition e).grouped = true := by
  cases hshape : (groupCondition e).shape with
  | chain logic conditions => exact grouped_groupCondition hshape
  | binary i left right =>
    by_contra hgrouped
    have hshown := Expr.shows_of_binary htext hshape (Bool.eq_false_iff.mpr hgrouped)
    have hsame : i.operator.strength = own := by simpa [Expr.strength?, hshape] using hown
    exact absurd (hshows _ hshown) (by omega)
  | _ => simp [Expr.strength?, hshape] at hown

/-- A chain of tidied conditions can be read, exactly if every operator that one of them shows binds
more tightly than that of the chain. -/
theorem readBack_iff {logic : Logic} {conditions : List Expr} {parts : List (List Lexeme)}
    (hnil : conditions ≠ [])
    (hparts : lexemesOfAll (conditions.map Config.groupCondition) = .ok parts) :
    ReadBack logic (conditions.map Config.groupCondition)
        ([Lexeme.operator logic.operator].intercalate parts) parts ↔
      ∀ e ∈ conditions.map Config.groupCondition, ∀ o, e.Shows o →
        logic.operator.strength < o.strength := by
  have hpartsNil := ne_nil_of_lexemesOfAll hparts (by simpa using hnil)
  have hread := (Lexeme.read_intercalate_eq_some_iff (o := logic.operator) hpartsNil).trans
    (forall_shows_iff hparts (logic.operator.strength < ·.strength))
  refine ⟨fun hback => hread.mp hback.read, fun hshows => ⟨?_, hread.mpr hshows⟩⟩
  intro e he own hown hlooser
  have htext : e.lexemes ∈ parts.map Except.ok :=
    map_lexemes_of_lexemesOfAll hparts ▸ List.mem_map_of_mem he
  obtain ⟨text, -, htext⟩ := List.mem_map.mp htext
  obtain ⟨condition, -, rfl⟩ := List.mem_map.mp he
  exact Config.grouped_of_shows htext.symm (hshows _ he) hown hlooser

/-- Tidying gives an expression for each. -/
theorem length_of_tidyExprs {c : Config} {es es' : List Expr} {scopes scopes' : Scopes}
    (hrun : tidyExprs c es scopes = .ok (es', scopes')) : es'.length = es.length := by
  induction es generalizing es' scopes with
  | nil =>
    cases hrun
    rfl
  | cons e es ih =>
    obtain ⟨⟨first, middle⟩, -, hrun⟩ := exists_of_bind_eq_ok hrun
    obtain ⟨⟨rest, last⟩, hrest, hrun⟩ := exists_of_bind_eq_ok hrun
    cases hrun
    simp [ih hrest]

/-- Tidying a chain keeps the number of its conditions, and of the conditions it puts those in
parentheses that are chains. The text of the chain can then be read, exactly if every operator that
a condition shows outside of parentheses binds more tightly than that of the chain. -/
theorem tidied_chain_readBack_iff (c : Config) (logic : Logic) (conditions : List Expr)
    (hnil : conditions ≠ []) (outer : Scopes) (f : Fragment) :
    ∃ tidied f', tidyExprs c conditions (f :: outer) = .ok (tidied, f' :: outer) ∧
      tidied.length = conditions.length ∧
      (Shape.chain logic conditions).tidy c (f :: outer) =
        .ok (.chain logic (tidied.map Config.groupCondition), f' :: outer) ∧
      ∀ written, (Shape.chain logic (tidied.map Config.groupCondition)).steps = .ok written →
        ∃ text parts, written = text.flatMap Lexeme.steps ∧
          (Shape.chain logic (tidied.map Config.groupCondition)).lexemes = .ok text ∧
          lexemesOfAll (tidied.map Config.groupCondition) = .ok parts ∧
          (ReadBack logic (tidied.map Config.groupCondition) text parts ↔
            ∀ e ∈ tidied.map Config.groupCondition, ∀ o, e.Shows o →
              logic.operator.strength < o.strength) := by
  obtain ⟨tidied, f', hrun, -⟩ := tidyExprs_passes c conditions outer f
  have hlength := length_of_tidyExprs hrun
  refine ⟨tidied, f', hrun, hlength, Tidying.bind_eq hrun rfl, fun written hwritten => ?_⟩
  obtain ⟨text, htext, rfl⟩ := exists_lexemes_of_steps hwritten
  obtain ⟨parts, hparts, hjoined⟩ := exists_of_bind_eq_ok htext
  cases hjoined
  refine ⟨_, parts, rfl, htext, hparts, readBack_iff ?_ hparts⟩
  rintro rfl
  exact hnil (List.eq_nil_of_length_eq_zero hlength.symm)

namespace Sample

/-- Code that pushes a truth value read from a variable of the instance. -/
def pushTruth (name : String) : List Instruction :=
  [.pushVariable .push ⟨name, .own⟩ .normal, .convert .variable .boolean]

/-- The operator `^^`. -/
def exclusiveOr : Instruction :=
  (Instruction.plain .xor).withTypes .boolean .boolean

/-- Code that returns whether exactly one of `a` and `b` holds, and `c` holds too. -/
def returnsExclusive : Entry where
  name := "gml_Object_player_Step_0"
  body := [
    .chain .and [
      [.block ⟨0, pushTruth "a" ++ pushTruth "b" ++ [exclusiveOr]⟩],
      [.block ⟨0, pushTruth "c"⟩]],
    .block ⟨0, [.plain .ret]⟩]

/-- The conditions `a ^^ b` and `c`. -/
def exclusiveConditions : List Expr :=
  [.ofShape (.binary exclusiveOr (own "a") (own "b")), own "c"]

/-- The conditions `a == b` and `c`. -/
def equalConditions : List Expr :=
  [.ofShape (.binary (.compare .equal .variable .variable) (own "a") (own "b")), own "c"]

end Sample

/-- A comparison and a variable joined by `and`: the chain is read back as these two exactly if all
operators that they show bind more tightly. -/
theorem tidied_chain_readBack_iff_equal :
    Sample.equalConditions ≠ [] ∧
      ∃ tidied f', tidyExprs {} Sample.equalConditions [{}] = .ok (tidied, [f']) ∧
        tidied.length = 2 ∧
        (Shape.chain .and Sample.equalConditions).tidy {} [{}] =
          .ok (.chain .and (tidied.map Config.groupCondition), [f']) ∧
        ∀ written, (Shape.chain .and (tidied.map Config.groupCondition)).steps = .ok written →
          ∃ text parts, written = text.flatMap Lexeme.steps ∧
            (Shape.chain .and (tidied.map Config.groupCondition)).lexemes = .ok text ∧
            lexemesOfAll (tidied.map Config.groupCondition) = .ok parts ∧
            (ReadBack .and (tidied.map Config.groupCondition) text parts ↔
              ∀ e ∈ tidied.map Config.groupCondition, ∀ o, e.Shows o → 3 < o.strength) := by
  have hnil : Sample.equalConditions ≠ [] := by simp [Sample.equalConditions]
  exact ⟨hnil, tidied_chain_readBack_iff {} .and Sample.equalConditions hnil [] {}⟩

/-- The condition `a ^^ b` of a chain with `&&` is not put in parentheses, and a reader takes
`b && c` for the right operand of `^^`. -/
theorem exclusive_condition_misread :
    (Shape.chain .and Sample.exclusiveConditions).tidy {} [{}] =
        .ok (.chain .and Sample.exclusiveConditions, [{}]) ∧
      (∃ text parts, (Shape.chain .and Sample.exclusiveConditions).lexemes = .ok text ∧
        lexemesOfAll Sample.exclusiveConditions = .ok parts ∧
        Lexeme.read Logic.and.operator text = none ∧
        ¬ ReadBack .and Sample.exclusiveConditions text parts) ∧
      decompile Sample.returnsExclusive = .ok "return a ^^ b && c;\n" := by
  refine ⟨rfl, ⟨_, _, rfl, rfl, rfl, ?_⟩, by decide +kernel⟩
  intro hread
  cases hread.read

end GmlDecompiler

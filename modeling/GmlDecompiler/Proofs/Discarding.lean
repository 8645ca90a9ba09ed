import GmlDecompiler.Program
import GmlDecompiler.Proofs.Duplication

/-!
# Copies that are discarded

A duplication marks both copies, so that the one on top can be dropped without becoming a statement.
A conversion changes the type of the slot and keeps the mark, with one exception: a literal `0` or
`1` that is converted to or from a truth value makes room for a new literal, which has no mark. So a
copy that is converted and dropped becomes a statement exactly if it is such a literal; the other
copy stays as it is in any case.
-/

namespace GmlDecompiler

/-- The conversion takes a literal `0` or `1` for a truth value. -/
def Instruction.TakesBits (i : Instruction) : Prop :=
  i.type1 = .int32 ∧ i.type2 = .boolean ∨ i.type1 = .boolean

namespace Expr

/-- The expression converted by one instruction after another. -/
def convertAll (conversions : List Instruction) (e : Expr) : Expr :=
  conversions.foldl (fun e i => e.convert i.type1 i.type2) e

/-- The expression is a literal `0` or `1`, and one of the conversions takes it for a truth
value. -/
def TakenAsTruth (conversions : List Instruction) (e : Expr) (bit : Bool) : Prop :=
  e.bit? = some bit ∧ ∃ i ∈ conversions, i.TakesBits

variable {e : Expr} {bit : Bool} {i : Instruction}

/-- A truth value in a slot of some type, without any mark, takes the place of a literal. -/
theorem convert_of_bit (hbit : e.bit? = some bit) (htakes : i.TakesBits) :
    e.convert i.type1 i.type2 = ⟨.boolean bit, false, false, i.type2⟩ := by
  simp only [convert, hbit]
  rcases htakes with ⟨hsource, htarget⟩ | hsource
  · rw [if_pos ⟨hsource, htarget⟩, htarget]
    rfl
  · rw [if_neg (by simp [hsource]), if_pos hsource]
    rfl

/-- Everything else stays, in a slot of another type. -/
theorem convert_of_not (hkept : e.bit? = none ∨ ¬ i.TakesBits) :
    e.convert i.type1 i.type2 = { e with slot := i.type2 } := by
  unfold convert
  split
  · rename_i bit hbit
    have htakes : ¬ i.TakesBits := hkept.resolve_left (by simp [hbit])
    obtain ⟨hinteger, htruth⟩ := not_or.mp htakes
    rw [if_neg hinteger, if_neg htruth]
  · rfl

/-- What no conversion takes for a truth value keeps its mark. -/
theorem convertAll_of_not {conversions : List Instruction}
    (hkept : ∀ bit, ¬ e.TakenAsTruth conversions bit) :
    ∃ slot, e.convertAll conversions = { e with slot := slot } := by
  induction conversions generalizing e with
  | nil =>
    refine ⟨e.slot, ?_⟩
    cases e
    rfl
  | cons i rest ih =>
    have hfirst : e.bit? = none ∨ ¬ i.TakesBits := by
      rw [or_iff_not_imp_left]
      intro hbit htakes
      obtain ⟨bit, hbit⟩ := Option.ne_none_iff_exists'.mp hbit
      exact hkept bit ⟨hbit, i, List.mem_cons_self, htakes⟩
    have hrest (bit : Bool) : ¬ ({ e with slot := i.type2 } : Expr).TakenAsTruth rest bit := by
      rintro ⟨hbit, j, hj, htakes⟩
      exact hkept bit ⟨hbit, j, List.mem_cons_of_mem i hj, htakes⟩
    obtain ⟨slot, hslot⟩ := ih hrest
    refine ⟨slot, ?_⟩
    rw [convertAll, List.foldl_cons, convert_of_not hfirst]
    exact hslot

/-- A literal that one of the conversions takes for a truth value ends up as one. No later
conversion finds a literal `0` or `1` any more. -/
theorem convertAll_of_takenAsTruth {conversions : List Instruction}
    (htaken : e.TakenAsTruth conversions bit) :
    ∃ slot, e.convertAll conversions = ⟨.boolean bit, false, false, slot⟩ := by
  induction conversions generalizing e with
  | nil =>
    obtain ⟨-, i, hi, -⟩ := htaken
    cases hi
  | cons i rest ih =>
    obtain ⟨hbit, j, hj, htakes⟩ := htaken
    rw [convertAll, List.foldl_cons]
    by_cases hfirst : i.TakesBits
    · have hnone (bit' : Bool) :
          ¬ (⟨.boolean bit, false, false, i.type2⟩ : Expr).TakenAsTruth rest bit' := by
        rintro ⟨hliteral, -⟩
        cases hliteral
      obtain ⟨slot, hslot⟩ := convertAll_of_not hnone
      rw [convert_of_bit hbit hfirst]
      exact ⟨slot, hslot⟩
    · have hlater : j ∈ rest := by
        rcases List.mem_cons.mp hj with rfl | hj
        · exact absurd htakes hfirst
        · exact hj
      rw [convert_of_not (.inr hfirst)]
      exact ih ⟨hbit, j, hlater, htakes⟩

end Expr

namespace Machine

variable {d : Dialect} {m : Machine} {e : Expr} {rest : List Expr}

/-- A conversion changes the top of the stack. -/
theorem step_convert {i : Instruction} (hopcode : i.opcode = .convert) :
    (m.withStack (e :: rest)).step d i =
      .ok (m.withStack (e.convert i.type1 i.type2 :: rest)) := by
  rw [step_eq (by simp [Instruction.isReturn, hopcode]), Instruction.perform, hopcode]
  simp [withStack, Action.changeTop, Action.pop, Fragment.tryPop, Fragment.push, bind, StateT.bind,
    Except.bind, Except.map, pure_apply, modify_apply]

/-- Conversions one after another change the top of the stack. -/
theorem run_convert {conversions : List Instruction}
    (hopcodes : ∀ i ∈ conversions, i.opcode = .convert) :
    conversions.foldlM (Machine.step d) (m.withStack (e :: rest)) =
      .ok (m.withStack (e.convertAll conversions :: rest)) := by
  induction conversions generalizing e with
  | nil => rfl
  | cons i conversions ih =>
    obtain ⟨hfirst, hrest⟩ := List.forall_mem_cons.mp hopcodes
    rw [List.foldlM_cons, step_convert hfirst]
    exact ih hrest

/-- What is dropped becomes a statement, unless it is a marked copy or a variable. -/
theorem step_popDelete {i : Instruction} (hopcode : i.opcode = .popDelete) :
    (m.withStack (e :: rest)).step d i =
      .ok { m.withStack rest with
        output := m.output ++ if e.duplicated || e.access?.isSome then [] else [.eval e] } := by
  rw [step_eq (by simp [Instruction.isReturn, hopcode]), Instruction.perform, hopcode]
  rfl

end Machine

/-- A copy that is converted and dropped leaves the other copy on top of the stack, marked, and all
else in the fragment as it was. It gives no statement exactly if it is not a literal `0` or `1` that
one of the conversions takes for a truth value; such a literal is evaluated as a statement, as the
truth value. -/
theorem discarded_copy_silent_iff (d : Dialect) (m : Machine) {e : Expr} {rest : List Expr}
    {copy drop : Instruction} {conversions : List Instruction}
    (hstack : m.fragment.stack = e :: rest) (hcopy : copy.opcode = .duplicate)
    (hplain : copy.swapSize = 0) (hbytes : copy.copyBytes = e.slot.size)
    (hconversions : ∀ i ∈ conversions, i.opcode = .convert) (hdrop : drop.opcode = .popDelete) :
    ∃ m', (copy :: (conversions ++ [drop])).foldlM (Machine.step d) m = .ok m' ∧
      m'.fragment = { m.fragment with stack := { e with duplicated := true } :: rest } ∧
      (m'.output = m.output ↔ ∀ bit, ¬ e.TakenAsTruth conversions bit) ∧
      ∀ bit, e.TakenAsTruth conversions bit →
        ∃ slot, m'.output = m.output ++ [.eval ⟨.boolean bit, false, false, slot⟩] := by
  let marked : Expr := { e with duplicated := true }
  have hcovers : Covers copy.copyBytes m.fragment.stack [e] rest :=
    .of_exact hstack (by simp [hbytes])
  have hfirst : m.step d copy = .ok (m.withStack (marked :: marked :: rest)) := by
    rw [Machine.step_duplicate hcopy, if_pos hplain, Instruction.copyRegion_of_covers hcovers,
      if_neg (by simp [hbytes])]
    rfl
  let dropped := marked.convertAll conversions
  let m' : Machine := { m.withStack (marked :: rest) with
    output := m.output ++ if dropped.duplicated || dropped.access?.isSome then []
      else [.eval dropped] }
  have hrun : (copy :: (conversions ++ [drop])).foldlM (Machine.step d) m = .ok m' := by
    rw [List.foldlM_cons, hfirst]
    change (conversions ++ [drop]).foldlM (Machine.step d) _ = _
    rw [List.foldlM_append, Machine.run_convert hconversions]
    change [drop].foldlM (Machine.step d) _ = _
    rw [List.foldlM_cons, Machine.step_popDelete hdrop]
    rfl
  -- Marking an expression does not change what the conversions take it for.
  have hevaluated (bit : Bool) (htaken : e.TakenAsTruth conversions bit) :
      ∃ slot, m'.output = m.output ++ [.eval ⟨.boolean bit, false, false, slot⟩] := by
    have hmarked : marked.TakenAsTruth conversions bit := htaken
    obtain ⟨slot, hslot⟩ := Expr.convertAll_of_takenAsTruth hmarked
    refine ⟨slot, ?_⟩
    simp only [m', dropped, hslot]
    rfl
  refine ⟨m', hrun, rfl, ⟨fun hsilent bit htaken => ?_, fun hkept => ?_⟩, hevaluated⟩
  · obtain ⟨slot, houtput⟩ := hevaluated bit htaken
    rw [houtput] at hsilent
    exact List.cons_ne_nil _ _ (List.self_eq_append_right.mp hsilent.symm)
  · have hmarked : ∀ bit, ¬ marked.TakenAsTruth conversions bit := hkept
    obtain ⟨slot, hslot⟩ := Expr.convertAll_of_not hmarked
    simp only [m', dropped, hslot, marked, Bool.true_or, if_true, List.append_nil]

namespace Sample

/-- The duplication of one slot of four bytes. -/
def copyWord : Instruction := .duplicate .int32 0 0

/-- The instruction that drops the top of the stack. -/
def dropTop : Instruction := .plain .popDelete

/-- A copy of a literal that is converted to a truth value and dropped, before the literal is stored
in the variable `x`. -/
def dropsTruth (literal : Int16) : Entry where
  name := "gml_Object_player_Step_0"
  body := [.block ⟨0, [.pushImmediate literal, copyWord, .convert .int32 .boolean, dropTop,
    .popVariable ⟨"x", .own⟩ .normal .variable]⟩]

end Sample

open Sample

/-- A copy of the word `1` goes through two conversions and is dropped silently, since only a
literal of 16 bits is taken for a truth value. -/
theorem discarded_copy_silent_iff_word :
    (holding [word 1]).fragment.stack = [word 1] ∧ copyWord.opcode = .duplicate ∧
      copyWord.swapSize = 0 ∧ copyWord.copyBytes = (word 1).slot.size ∧
      (∀ i ∈ [Instruction.convert .int32 .boolean, .convert .boolean .variable],
        i.opcode = .convert) ∧
      dropTop.opcode = .popDelete ∧
      ∃ m', [copyWord, .convert .int32 .boolean, .convert .boolean .variable, dropTop].foldlM
          (Machine.step Version.current.dialect) (holding [word 1]) = .ok m' ∧
        m'.fragment.stack = [{ word 1 with duplicated := true }] ∧ m'.output = [] := by
  have hconversions : ∀ i ∈ [Instruction.convert .int32 .boolean, .convert .boolean .variable],
      i.opcode = .convert := by simp [Instruction.convert, Instruction.plain, Instruction.withTypes]
  refine ⟨rfl, rfl, rfl, rfl, hconversions, rfl, ?_⟩
  obtain ⟨m', hrun, hfragment, hsilent, -⟩ :=
    @discarded_copy_silent_iff Version.current.dialect (holding [word 1]) _ _ copyWord dropTop _
      rfl rfl rfl rfl hconversions rfl
  refine ⟨m', hrun, by rw [hfragment], hsilent.mpr ?_⟩
  rintro bit ⟨hbit, -⟩
  cases hbit

/-- The mark is lost where a bit is taken for a truth value: the copy of a literal `1` is dropped as
a statement of its own, although the copy of a literal `2` is dropped silently. -/
theorem discarded_bit_evaluated :
    (∀ literal : Int16, (Expr.ofShape (.int16 literal)).slot.size = copyWord.copyBytes) ∧
      [copyWord, .convert .int32 .boolean, dropTop].foldlM (Machine.step Version.current.dialect)
        (holding [.ofShape (.int16 1)]) =
          .ok ⟨{ stack := [{ Expr.ofShape (.int16 1) with duplicated := true }] },
            [.eval (.ofShape (.boolean true))]⟩ ∧
      decompile (dropsTruth 1) = .ok "true;\nx = 1;\n" ∧
      decompile (dropsTruth 2) = .ok "x = 2;\n" :=
  ⟨fun _ => rfl, rfl, by decide +kernel, by decide +kernel⟩

end GmlDecompiler

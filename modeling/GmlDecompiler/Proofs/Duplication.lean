import GmlDecompiler.Proofs.Codegen.Addressing

/-!
# Duplications and swaps

A duplication asks for a number of bytes, a swap for two, and both take whole slots off the stack
until they have them. Slots take four, eight or sixteen bytes, so that a region may end inside a
slot; then nothing can be copied or exchanged. `Covers` tells the slots that are taken, and no slot
is without bytes, so that a region that ends on the boundary of a slot is the only one of its size.
For this reason a duplication is exact, and a swap is undone by the swap of the same regions.
-/

namespace GmlDecompiler

/-- Every slot takes some bytes. -/
theorem SlotType.size_pos (t : SlotType) : 0 < t.size := by
  cases t <;> decide

/-- The bytes that slots take. -/
def bytesOf : List Expr → Nat
  | [] => 0
  | e :: slots => e.slot.size + bytesOf slots

/-- No slots take no bytes. -/
@[simp] theorem bytesOf_nil : bytesOf [] = 0 := rfl

/-- Slots take the bytes of the first one and those of the rest. -/
@[simp] theorem bytesOf_cons (e : Expr) (slots : List Expr) :
    bytesOf (e :: slots) = e.slot.size + bytesOf slots := rfl

/-- Slots in two parts take the bytes of both. -/
@[simp] theorem bytesOf_append (slots below : List Expr) :
    bytesOf (slots ++ below) = bytesOf slots + bytesOf below := by
  induction slots with
  | nil => rw [List.nil_append, bytesOf_nil, Nat.zero_add]
  | cons e slots ih => rw [List.cons_append, bytesOf_cons, bytesOf_cons, ih, Nat.add_assoc]

/-- Slots without bytes are none at all. -/
theorem bytesOf_eq_zero_iff {slots : List Expr} : bytesOf slots = 0 ↔ slots = [] := by
  cases slots with
  | nil => simp
  | cons e slots =>
    have hpos := e.slot.size_pos
    simp only [bytesOf_cons, reduceCtorEq, iff_false]
    omega

/-- The slots are the shortest run from the top of the stack that has at least so many bytes. -/
structure Covers (bytes : Int) (stack slots rest : List Expr) : Prop where
  split : stack = slots ++ rest
  enough : bytes ≤ bytesOf slots
  shortest : ∀ top, top <+: stack → bytes ≤ bytesOf top → slots.length ≤ top.length

namespace Covers

variable {bytes : Int} {stack slots rest : List Expr}

/-- There is only one shortest run. -/
theorem unique {slots' rest' : List Expr} (h : Covers bytes stack slots rest)
    (h' : Covers bytes stack slots' rest') : slots' = slots ∧ rest' = rest := by
  have hle := h.shortest slots' ⟨rest', h'.split.symm⟩ h'.enough
  have hge := h'.shortest slots ⟨rest, h.split.symm⟩ h.enough
  exact List.append_inj (h'.split.symm.trans h.split) (by omega)

/-- A run that has exactly so many bytes is the shortest one that has as many. -/
theorem of_exact (hsplit : stack = slots ++ rest) (hbytes : (bytesOf slots : Int) = bytes) :
    Covers bytes stack slots rest := by
  refine ⟨hsplit, Int.le_of_eq hbytes.symm, fun top htop henough => ?_⟩
  -- A shorter run misses at least one slot, and no slot is without bytes.
  by_contra hshorter
  obtain ⟨missing, hmissing⟩ : top <+: slots :=
    List.prefix_of_prefix_length_le htop ⟨rest, hsplit.symm⟩ (by omega)
  have hsum : bytesOf slots = bytesOf top + bytesOf missing := by rw [← hmissing, bytesOf_append]
  have hnil : missing = [] := bytesOf_eq_zero_iff.mp (by omega)
  rw [hnil, List.append_nil] at hmissing
  exact hshorter (Nat.le_of_eq (by rw [hmissing]))

/-- The empty run covers no bytes. -/
theorem nil (hbytes : bytes ≤ 0) : Covers bytes stack [] stack where
  split := rfl
  enough := hbytes
  shortest _ _ _ := Nat.zero_le _

/-- The top slot is needed as long as bytes are asked for, and the run goes on below it. -/
theorem cons_iff {e : Expr} (hbytes : 0 < bytes) :
    Covers bytes (e :: stack) (e :: slots) rest ↔
      Covers (bytes - e.slot.size) stack slots rest := by
  constructor
  · rintro ⟨hsplit, henough, hshortest⟩
    refine ⟨List.tail_eq_of_cons_eq hsplit, ?_, fun top htop htopEnough => ?_⟩
    · rw [bytesOf_cons] at henough
      omega
    · have hlength := hshortest (e :: top) (List.cons_prefix_cons.mpr ⟨rfl, htop⟩)
        (by rw [bytesOf_cons]; omega)
      simpa using hlength
  · rintro ⟨hsplit, henough, hshortest⟩
    refine ⟨congrArg (e :: ·) hsplit, ?_, fun top htop htopEnough => ?_⟩
    · rw [bytesOf_cons]
      omega
    · cases top with
      | nil =>
        rw [bytesOf_nil] at htopEnough
        omega
      | cons first top =>
        obtain ⟨rfl, hbelow⟩ := List.cons_prefix_cons.mp htop
        have hlength := hshortest top hbelow (by rw [bytesOf_cons] at htopEnough; omega)
        simpa using hlength

end Covers

/-- A stack with enough bytes has a shortest run that has as many. -/
theorem exists_covers {bytes : Int} {stack : List Expr} (henough : bytes ≤ bytesOf stack) :
    ∃ slots rest, Covers bytes stack slots rest := by
  induction stack generalizing bytes with
  | nil => exact ⟨[], [], .nil henough⟩
  | cons e stack ih =>
    by_cases hbytes : 0 < bytes
    · have hbelow : bytes - e.slot.size ≤ (bytesOf stack : Int) := by
        rw [bytesOf_cons] at henough
        omega
      obtain ⟨slots, rest, hcovers⟩ := ih hbelow
      exact ⟨e :: slots, rest, (Covers.cons_iff hbytes).mpr hcovers⟩
    · exact ⟨[], e :: stack, .nil (by omega)⟩

namespace Segment

/-- The segment that is taken is the shortest run that has enough bytes. -/
theorem take_of_covers {bytes : Int} {stack slots rest : List Expr}
    (hcovers : Covers bytes stack slots rest) :
    Segment.take bytes stack = some ⟨slots, rest, bytes - bytesOf slots⟩ := by
  induction slots generalizing bytes stack with
  | nil =>
    obtain rfl : stack = rest := hcovers.split
    have hbytes : ¬ 0 < bytes := by simpa using hcovers.enough
    cases stack <;> simp [Segment.take, hbytes]
  | cons e slots ih =>
    obtain rfl : stack = e :: (slots ++ rest) := hcovers.split
    have hbytes : 0 < bytes := by
      by_contra hnone
      have hlength := hcovers.shortest [] List.nil_prefix (by simpa using hnone)
      simp at hlength
    have hbelow := ih ((Covers.cons_iff hbytes).mp hcovers)
    rw [Segment.take, if_pos hbytes, hbelow, Option.map_some, bytesOf_cons]
    simp only [Option.some.injEq, Segment.mk.injEq, true_and]
    omega

/-- No segment is taken exactly if the whole stack has too few bytes. -/
theorem take_eq_none_iff {bytes : Int} {stack : List Expr} :
    Segment.take bytes stack = none ↔ (bytesOf stack : Int) < bytes := by
  induction stack generalizing bytes with
  | nil => simp [Segment.take]
  | cons e stack ih =>
    by_cases hbytes : 0 < bytes
    · rw [Segment.take, if_pos hbytes, Option.map_eq_none_iff, ih, bytesOf_cons]
      omega
    · rw [Segment.take, if_neg hbytes]
      simp only [reduceCtorEq, false_iff]
      omega

end Segment

/-- The machine with other slots on the stack of its fragment. -/
def Machine.withStack (m : Machine) (stack : List Expr) : Machine :=
  { m with fragment := { m.fragment with stack := stack } }

/-- The stack that a machine was given is its stack. -/
@[simp] theorem Machine.stack_withStack (m : Machine) (stack : List Expr) :
    (m.withStack stack).fragment.stack = stack := rfl

/-- Only the last stack that a machine was given counts. -/
@[simp] theorem Machine.withStack_withStack (m : Machine) (stack stack' : List Expr) :
    (m.withStack stack).withStack stack' = m.withStack stack' := rfl

/-- A machine that is given its own stack stays as it is. -/
@[simp] theorem Machine.withStack_self (m : Machine) : m.withStack m.fragment.stack = m := by
  obtain ⟨⟨⟩, output⟩ := m
  rfl

/-- Copies of slots, marked as such. -/
def copies (slots : List Expr) : List Expr :=
  slots.map fun e => { e with duplicated := true }

namespace Instruction

/-- The bytes that a duplication copies. -/
def copyBytes (i : Instruction) : Nat :=
  (i.dupSize.toNat + 1) * i.type1.size

/-- The bytes of the upper region of a swap. -/
def topBytes (i : Instruction) : Nat :=
  i.dupSize.toNat * i.type1.size

/-- The bytes of the lower region of a swap. -/
def bottomBytes (i : Instruction) : Nat :=
  i.swapSize.toNat * i.type1.size

variable {i : Instruction} {bytes : Int} {stack slots rest : List Expr}

/-- A segment is taken for an instruction where the stack has enough bytes. -/
theorem takeSegment_of_covers (hcovers : Covers bytes stack slots rest) :
    i.takeSegment bytes stack = .ok ⟨slots, rest, bytes - bytesOf slots⟩ := by
  rw [takeSegment, Segment.take_of_covers hcovers]

/-- The instruction finds too few operands where the stack has fewer bytes. -/
theorem takeSegment_of_lt (hfew : (bytesOf stack : Int) < bytes) :
    i.takeSegment bytes stack = .error (.stackUnderflow i.address) := by
  rw [takeSegment, Segment.take_eq_none_iff.mpr hfew]

/-- A duplication in terms of the bytes that it copies. -/
theorem copyRegion_eq (i : Instruction) (stack : List Expr) :
    i.copyRegion stack = do
      let segment ← i.takeSegment i.copyBytes stack
      if segment.remaining < 0 then .error (.dupOverread i.copyBytes segment.remaining)
      else return copies segment.slots ++ copies segment.slots ++ segment.rest := by
  unfold copyRegion copyBytes
  push_cast
  rfl

/-- A stack with too few bytes cannot be copied from. -/
theorem copyRegion_of_lt (hfew : bytesOf stack < i.copyBytes) :
    i.copyRegion stack = .error (.stackUnderflow i.address) := by
  rw [copyRegion_eq, takeSegment_of_lt (Int.ofNat_lt.mpr hfew)]
  rfl

/-- A region that is covered is copied, unless it reaches too far. -/
theorem copyRegion_of_covers (hcovers : Covers i.copyBytes stack slots rest) :
    i.copyRegion stack =
      if i.copyBytes < bytesOf slots then
        .error (.dupOverread i.copyBytes (i.copyBytes - bytesOf slots))
      else .ok (copies slots ++ copies slots ++ rest) := by
  rw [copyRegion_eq, takeSegment_of_covers hcovers]
  have hover : (i.copyBytes - bytesOf slots : Int) < 0 ↔ i.copyBytes < bytesOf slots := by omega
  simp only [bind, Except.bind, hover]
  rfl

/-- A swap in terms of the bytes of both regions. -/
theorem swapRegions_eq (i : Instruction) (hswaps : ¬ (i.type1 = .variable ∧ i.dupSize = 0))
    (stack : List Expr) :
    i.swapRegions stack = do
      let top ← i.takeSegment i.topBytes stack
      let bottom ← i.takeSegment i.bottomBytes top.rest
      if top.remaining < 0 ∨ bottom.remaining < 0 then
        .error (.swapOverread i.topBytes top.remaining i.bottomBytes bottom.remaining)
      else return bottom.slots ++ top.slots ++ bottom.rest := by
  unfold swapRegions topBytes bottomBytes
  rw [if_neg hswaps]
  push_cast
  rfl

/-- The stack has too few bytes for the upper region of a swap, or too few below it for the lower
one. -/
def RunsOut (i : Instruction) (stack : List Expr) : Prop :=
  bytesOf stack < i.topBytes ∨
    ∃ top below, Covers i.topBytes stack top below ∧ bytesOf below < i.bottomBytes

/-- Both regions of a swap end on the boundary of a slot. -/
structure Exchanges (i : Instruction) (stack top bottom rest : List Expr) : Prop where
  split : stack = top ++ bottom ++ rest
  top_bytes : bytesOf top = i.topBytes
  bottom_bytes : bytesOf bottom = i.bottomBytes

/-- The upper region is the shortest run with its bytes. -/
theorem Exchanges.covers_top {top bottom : List Expr}
    (hexchanges : i.Exchanges stack top bottom rest) :
    Covers i.topBytes stack top (bottom ++ rest) :=
  .of_exact (by rw [hexchanges.split, List.append_assoc]) (by rw [hexchanges.top_bytes])

/-- The lower region is the shortest run with its bytes below the upper one. -/
theorem Exchanges.covers_bottom {top bottom : List Expr}
    (hexchanges : i.Exchanges stack top bottom rest) :
    Covers i.bottomBytes (bottom ++ rest) bottom rest :=
  .of_exact rfl (by rw [hexchanges.bottom_bytes])

/-- Regions that do not reach too far end on the boundaries of slots. -/
theorem Exchanges.of_covers {top below bottom : List Expr}
    (htop : Covers i.topBytes stack top below) (hbottom : Covers i.bottomBytes below bottom rest)
    (hends : ¬ (i.topBytes < bytesOf top ∨ i.bottomBytes < bytesOf bottom)) :
    i.Exchanges stack top bottom rest := by
  have htopEnough := htop.enough
  have hbottomEnough := hbottom.enough
  refine ⟨?_, by omega, by omega⟩
  rw [htop.split, hbottom.split, List.append_assoc]

/-- The swap of the same regions with their sizes exchanged finds the regions exchanged. -/
theorem Exchanges.exchanged {j : Instruction} {top bottom : List Expr}
    (hexchanges : i.Exchanges stack top bottom rest) (htype : j.type1 = i.type1)
    (htop : j.dupSize = i.swapSize) (hbottom : j.swapSize = i.dupSize) :
    j.Exchanges (bottom ++ top ++ rest) bottom top rest where
  split := rfl
  top_bytes := by rw [hexchanges.bottom_bytes, topBytes, bottomBytes, htype, htop]
  bottom_bytes := by rw [hexchanges.top_bytes, topBytes, bottomBytes, htype, hbottom]

/-- A stack that does not run out has both regions, if one counts what reaches too far. -/
theorem exists_covers_of_not_runsOut (hnot : ¬ i.RunsOut stack) :
    ∃ top below bottom rest, Covers i.topBytes stack top below ∧
      Covers i.bottomBytes below bottom rest := by
  obtain ⟨henough, hbelow⟩ := not_or.mp hnot
  obtain ⟨top, below, htop⟩ := exists_covers (Int.ofNat_le.mpr (Nat.le_of_not_lt henough))
  have hlower : i.bottomBytes ≤ bytesOf below := by
    by_contra hfew
    exact hbelow ⟨top, below, htop, by omega⟩
  obtain ⟨bottom, rest, hbottom⟩ := exists_covers (Int.ofNat_le.mpr hlower)
  exact ⟨top, below, bottom, rest, htop, hbottom⟩

section Swap

variable (hswaps : ¬ (i.type1 = .variable ∧ i.dupSize = 0))

include hswaps

/-- A swap finds too few operands where the stack runs out. -/
theorem swapRegions_of_runsOut (hout : i.RunsOut stack) :
    i.swapRegions stack = .error (.stackUnderflow i.address) := by
  rw [swapRegions_eq i hswaps]
  rcases hout with hfew | ⟨top, below, htop, hfew⟩
  · rw [takeSegment_of_lt (Int.ofNat_lt.mpr hfew)]
    rfl
  · have hbottom := takeSegment_of_lt (i := i) (Int.ofNat_lt.mpr hfew)
    simp only [takeSegment_of_covers htop, hbottom, bind, Except.bind]

/-- Regions that are covered are exchanged, unless one of them reaches too far. -/
theorem swapRegions_of_covers {top below bottom : List Expr}
    (htop : Covers i.topBytes stack top below) (hbottom : Covers i.bottomBytes below bottom rest) :
    i.swapRegions stack =
      if i.topBytes < bytesOf top ∨ i.bottomBytes < bytesOf bottom then
        .error (.swapOverread i.topBytes (i.topBytes - bytesOf top) i.bottomBytes
          (i.bottomBytes - bytesOf bottom))
      else .ok (bottom ++ top ++ rest) := by
  rw [swapRegions_eq i hswaps]
  have hover : (i.topBytes - bytesOf top : Int) < 0 ∨ (i.bottomBytes - bytesOf bottom : Int) < 0 ↔
      i.topBytes < bytesOf top ∨ i.bottomBytes < bytesOf bottom := by omega
  simp only [takeSegment_of_covers htop, takeSegment_of_covers hbottom, bind, Except.bind, hover]
  rfl

/-- A swap succeeds exactly if both regions end on the boundaries of slots, and exchanges them. -/
theorem swapRegions_eq_ok_iff {stack' : List Expr} :
    i.swapRegions stack = .ok stack' ↔
      ∃ top bottom rest, i.Exchanges stack top bottom rest ∧ stack' = bottom ++ top ++ rest := by
  constructor
  · intro hswap
    by_cases hout : i.RunsOut stack
    · rw [swapRegions_of_runsOut hswaps hout] at hswap
      cases hswap
    · obtain ⟨top, below, bottom, rest, htop, hbottom⟩ := exists_covers_of_not_runsOut hout
      rw [swapRegions_of_covers hswaps htop hbottom] at hswap
      split at hswap
      · cases hswap
      · cases hswap
        exact ⟨top, bottom, rest, .of_covers htop hbottom ‹_›, rfl⟩
  · rintro ⟨top, bottom, rest, hexchanges, rfl⟩
    have htop := hexchanges.top_bytes
    have hbottom := hexchanges.bottom_bytes
    rw [swapRegions_of_covers hswaps hexchanges.covers_top hexchanges.covers_bottom,
      if_neg (by omega)]

end Swap

end Instruction

/-- A duplication or a swap changes the stack and nothing else. -/
theorem Machine.step_duplicate {i : Instruction} (hopcode : i.opcode = .duplicate) (d : Dialect)
    (m : Machine) :
    m.step d i =
      (if i.swapSize = 0 then i.copyRegion m.fragment.stack
        else i.swapRegions m.fragment.stack).map m.withStack := by
  rw [Machine.step_eq (by simp [Instruction.isReturn, hopcode]), Instruction.perform, hopcode]
  have hrun : i.performDuplicate m.fragment =
      (if i.swapSize = 0 then i.copyRegion m.fragment.stack
        else i.swapRegions m.fragment.stack).map fun stack =>
          ((), { m.fragment with stack := stack }) := by
    unfold Instruction.performDuplicate
    split <;> rfl
  simp only [bind, StateT.bind, hrun]
  cases (if i.swapSize = 0 then i.copyRegion m.fragment.stack
    else i.swapRegions m.fragment.stack) with
  | error fault => rfl
  | ok stack => simp [Except.map, Except.bind, Machine.withStack]

/-- A plain duplication is exact. If the top of the stack has a run of exactly the bytes asked for,
it is the only one, and two marked copies take its place. If the whole stack has fewer bytes, the
instruction finds too few operands. In every other case the shortest run that has enough bytes
reaches too far, and the fault tells by how much. -/
theorem duplication_exact (d : Dialect) (m : Machine) {i : Instruction}
    (hopcode : i.opcode = .duplicate) (hplain : i.swapSize = 0) :
    (∀ segment rest, m.fragment.stack = segment ++ rest → bytesOf segment = i.copyBytes →
      (∀ segment' rest', m.fragment.stack = segment' ++ rest' → bytesOf segment' = i.copyBytes →
        segment' = segment) ∧
      m.step d i = .ok (m.withStack (copies segment ++ copies segment ++ rest))) ∧
    (bytesOf m.fragment.stack < i.copyBytes → m.step d i = .error (.stackUnderflow i.address)) ∧
    (i.copyBytes ≤ bytesOf m.fragment.stack →
      (∀ segment, segment <+: m.fragment.stack → bytesOf segment ≠ i.copyBytes) →
      ∃ segment rest, Covers i.copyBytes m.fragment.stack segment rest ∧
        i.copyBytes < bytesOf segment ∧
        m.step d i = .error (.dupOverread i.copyBytes (i.copyBytes - bytesOf segment))) := by
  have hstep : m.step d i = (i.copyRegion m.fragment.stack).map m.withStack := by
    rw [Machine.step_duplicate hopcode, if_pos hplain]
  refine ⟨fun segment rest hsplit hbytes => ?_, fun hfew => ?_, fun henough hnone => ?_⟩
  · have hcovers : Covers i.copyBytes m.fragment.stack segment rest :=
      .of_exact hsplit (by rw [hbytes])
    constructor
    · intro segment' rest' hsplit' hbytes'
      exact (hcovers.unique (.of_exact hsplit' (by rw [hbytes']))).1
    · rw [hstep, Instruction.copyRegion_of_covers hcovers, if_neg (by omega)]
      rfl
  · rw [hstep, Instruction.copyRegion_of_lt hfew]
    rfl
  · obtain ⟨segment, rest, hcovers⟩ := exists_covers (Int.ofNat_le.mpr henough)
    have hreaches := hcovers.enough
    have hinexact := hnone segment ⟨rest, hcovers.split.symm⟩
    have hover : i.copyBytes < bytesOf segment := by omega
    refine ⟨segment, rest, hcovers, hover, ?_⟩
    rw [hstep, Instruction.copyRegion_of_covers hcovers, if_pos hover]
    rfl

namespace Sample

/-- A slot of four bytes. -/
def word (value : Int32) : Expr := .ofShape (.int32 value)

/-- A slot of eight bytes. -/
def pairOfWords : Expr := .ofShape (.int64 3)

/-- A slot of sixteen bytes. -/
def result : Expr := .ofShape (.call "random" [])

/-- A machine with some slots on its stack. -/
def holding (stack : List Expr) : Machine := ⟨{ stack := stack }, []⟩

/-- The duplication of two words. -/
def copyWords : Instruction := .duplicate .int32 1 0

end Sample

open Sample

/-- Two words are copied. One word is too few, and a slot of sixteen bytes below it reaches beyond
the eight bytes of the region. -/
theorem duplication_exact_words :
    copyWords.opcode = .duplicate ∧ copyWords.swapSize = 0 ∧
      (holding [word 1, word 2, result]).step Version.legacy.dialect copyWords =
        .ok (holding (copies [word 1, word 2, word 1, word 2] ++ [result])) ∧
      (holding [word 1]).step Version.legacy.dialect copyWords = .error (.stackUnderflow 0) ∧
      (holding [word 1, result]).step Version.legacy.dialect copyWords =
        .error (.dupOverread 8 (-12)) := by
  have hexact (stack : List Expr) :=
    duplication_exact Version.legacy.dialect (holding stack) (i := copyWords) rfl rfl
  refine ⟨rfl, rfl, ?_, ?_, ?_⟩
  · obtain ⟨hcopies, -, -⟩ := hexact [word 1, word 2, result]
    exact (hcopies [word 1, word 2] [result] rfl rfl).2
  · obtain ⟨-, hunderflow, -⟩ := hexact [word 1]
    exact hunderflow (by decide)
  · obtain ⟨-, -, hoverread⟩ := hexact [word 1, result]
    have hcovers : Covers copyWords.copyBytes [word 1, result] [word 1, result] [] :=
      (Covers.cons_iff (by decide)).mpr ((Covers.cons_iff (by decide)).mpr (.nil (by decide)))
    have hinexact (segment : List Expr) (htop : segment <+: [word 1, result]) :
        bytesOf segment ≠ copyWords.copyBytes := by
      simp only [List.prefix_cons_iff, List.prefix_nil] at htop
      obtain rfl | ⟨-, rfl, rfl | ⟨-, rfl, rfl⟩⟩ := htop <;> decide
    obtain ⟨segment, rest, hcovers', -, hfault⟩ := hoverread (by decide) hinexact
    obtain ⟨rfl, rfl⟩ := hcovers.unique hcovers'
    exact hfault

/-- What a swap does to the machine, with the regions that it exchanges. -/
theorem Machine.step_swap_eq_ok_iff {d : Dialect} {m m' : Machine} {i : Instruction}
    (hopcode : i.opcode = .duplicate) (hswap : i.swapSize ≠ 0)
    (hswaps : ¬ (i.type1 = .variable ∧ i.dupSize = 0)) :
    m.step d i = .ok m' ↔ ∃ top bottom rest, i.Exchanges m.fragment.stack top bottom rest ∧
      m' = m.withStack (bottom ++ top ++ rest) := by
  rw [Machine.step_duplicate hopcode, if_neg hswap]
  constructor
  · intro hrun
    cases hregions : i.swapRegions m.fragment.stack with
    | error fault =>
      rw [hregions] at hrun
      cases hrun
    | ok stack' =>
      rw [hregions] at hrun
      cases hrun
      obtain ⟨top, bottom, rest, hexchanges, rfl⟩ :=
        (Instruction.swapRegions_eq_ok_iff hswaps).mp hregions
      exact ⟨top, bottom, rest, hexchanges, rfl⟩
  · rintro ⟨top, bottom, rest, hexchanges, rfl⟩
    rw [(Instruction.swapRegions_eq_ok_iff hswaps).mpr ⟨top, bottom, rest, hexchanges, rfl⟩]
    rfl

/-- A swap exchanges two adjacent regions and is undone by the swap of the same regions. It succeeds
exactly if both regions end on the boundary of a slot, and then their slots are as they were. If the
stack runs out before it has both, the instruction finds too few operands; in every other case the
fault tells how far each of the regions reaches. -/
theorem swap_exact_and_undone (d : Dialect) (m : Machine) {i : Instruction}
    (hopcode : i.opcode = .duplicate) (hswap : i.swapSize ≠ 0)
    (hswaps : ¬ (i.type1 = .variable ∧ i.dupSize = 0)) :
    ((∃ m', m.step d i = .ok m') ↔
      ∃ top bottom rest, i.Exchanges m.fragment.stack top bottom rest) ∧
    (∀ top bottom rest, i.Exchanges m.fragment.stack top bottom rest →
      m.step d i = .ok (m.withStack (bottom ++ top ++ rest))) ∧
    (i.RunsOut m.fragment.stack → m.step d i = .error (.stackUnderflow i.address)) ∧
    (¬ i.RunsOut m.fragment.stack →
      (¬ ∃ top bottom rest, i.Exchanges m.fragment.stack top bottom rest) →
      ∃ top below bottom rest, Covers i.topBytes m.fragment.stack top below ∧
        Covers i.bottomBytes below bottom rest ∧
        (i.topBytes < bytesOf top ∨ i.bottomBytes < bytesOf bottom) ∧
        m.step d i = .error (.swapOverread i.topBytes (i.topBytes - bytesOf top) i.bottomBytes
          (i.bottomBytes - bytesOf bottom))) ∧
    ∀ (m' : Machine) (j : Instruction), m.step d i = .ok m' → j.opcode = .duplicate →
      j.type1 = i.type1 → j.dupSize = i.swapSize → j.swapSize = i.dupSize → i.dupSize ≠ 0 →
      m'.step d j = .ok m := by
  have hstep : m.step d i = (i.swapRegions m.fragment.stack).map m.withStack := by
    rw [Machine.step_duplicate hopcode, if_neg hswap]
  have hexact : ∀ m', m.step d i = .ok m' ↔ ∃ top bottom rest,
      i.Exchanges m.fragment.stack top bottom rest ∧ m' = m.withStack (bottom ++ top ++ rest) :=
    fun _ => Machine.step_swap_eq_ok_iff hopcode hswap hswaps
  refine ⟨⟨?_, ?_⟩, fun top bottom rest hexchanges => ?_, fun hout => ?_,
    fun hnot hinexact => ?_, ?_⟩
  · rintro ⟨m', hrun⟩
    obtain ⟨top, bottom, rest, hexchanges, -⟩ := (hexact m').mp hrun
    exact ⟨top, bottom, rest, hexchanges⟩
  · rintro ⟨top, bottom, rest, hexchanges⟩
    exact ⟨_, (hexact _).mpr ⟨top, bottom, rest, hexchanges, rfl⟩⟩
  · exact (hexact _).mpr ⟨top, bottom, rest, hexchanges, rfl⟩
  · rw [hstep, Instruction.swapRegions_of_runsOut hswaps hout]
    rfl
  · obtain ⟨top, below, bottom, rest, htop, hbottom⟩ :=
      Instruction.exists_covers_of_not_runsOut hnot
    have hover : i.topBytes < bytesOf top ∨ i.bottomBytes < bytesOf bottom := by
      by_contra hends
      exact hinexact ⟨top, bottom, rest, .of_covers htop hbottom hends⟩
    refine ⟨top, below, bottom, rest, htop, hbottom, hover, ?_⟩
    rw [hstep, Instruction.swapRegions_of_covers hswaps htop hbottom, if_pos hover]
    rfl
  · intro m' j hrun hopcode' htype htop hbottom hlower
    obtain ⟨top, bottom, rest, hexchanges, rfl⟩ := (hexact m').mp hrun
    -- The size of the upper region is now the one that was not zero, so that this swap is none of a
    -- variable in place.
    have hswaps' : ¬ (j.type1 = .variable ∧ j.dupSize = 0) := fun h => hswap (htop ▸ h.2)
    apply (Machine.step_swap_eq_ok_iff hopcode' (hbottom ▸ hlower) hswaps').mpr
    refine ⟨bottom, top, rest, hexchanges.exchanged htype htop hbottom, ?_⟩
    rw [Machine.withStack_withStack, ← hexchanges.split, Machine.withStack_self]

namespace Sample

/-- The swap of a word with two words below it. -/
def swapWords : Instruction := .duplicate .int32 1 2

/-- The swap of two words with a word below them. -/
def swapBack : Instruction := .duplicate .int32 2 1

end Sample

/-- A word and a pair of words change places and change back. A stack that is too short and a slot
that reaches beyond a region are faults. -/
theorem swap_exact_and_undone_words :
    swapWords.opcode = .duplicate ∧ swapWords.swapSize ≠ 0 ∧
      ¬ (swapWords.type1 = .variable ∧ swapWords.dupSize = 0) ∧
      (holding [word 1, pairOfWords, result]).step Version.legacy.dialect swapWords =
        .ok (holding [pairOfWords, word 1, result]) ∧
      (holding [pairOfWords, word 1, result]).step Version.legacy.dialect swapBack =
        .ok (holding [word 1, pairOfWords, result]) ∧
      (holding [result, word 1]).step Version.legacy.dialect swapWords =
        .error (.stackUnderflow 0) ∧
      (holding [result, pairOfWords]).step Version.legacy.dialect swapWords =
        .error (.swapOverread 4 (-12) 8 0) := by
  have hexact (stack : List Expr) :=
    swap_exact_and_undone Version.legacy.dialect (holding stack) (i := swapWords) rfl (by decide)
      (by decide)
  have htop (e : Expr) : Covers swapWords.topBytes [result, e] [result] [e] :=
    (Covers.cons_iff (by decide)).mpr (.nil (by decide))
  have hbottom : Covers swapWords.bottomBytes [pairOfWords] [pairOfWords] [] :=
    (Covers.cons_iff (by decide)).mpr (.nil (by decide))
  obtain ⟨-, hexchanges, -, -, hundone⟩ := hexact [word 1, pairOfWords, result]
  have hswap := hexchanges [word 1] [pairOfWords] [result] ⟨rfl, rfl, rfl⟩
  refine ⟨rfl, by decide, by decide, hswap, ?_, ?_, ?_⟩
  · exact hundone _ swapBack hswap rfl rfl rfl rfl (by decide)
  · obtain ⟨-, -, hunderflow, -, -⟩ := hexact [result, word 1]
    exact hunderflow (.inr ⟨[result], [word 1], htop (word 1), by decide⟩)
  · obtain ⟨-, -, -, hoverread, -⟩ := hexact [result, pairOfWords]
    have hnot : ¬ swapWords.RunsOut [result, pairOfWords] := by
      rintro (hfew | ⟨top, below, hcovers, hfew⟩)
      · exact absurd hfew (by decide)
      · obtain ⟨rfl, rfl⟩ := (htop pairOfWords).unique hcovers
        exact absurd hfew (by decide)
    have hinexact : ¬ ∃ top bottom rest,
        swapWords.Exchanges [result, pairOfWords] top bottom rest := by
      rintro ⟨top, bottom, rest, hregions⟩
      obtain ⟨rfl, -⟩ := (htop pairOfWords).unique hregions.covers_top
      exact absurd hregions.top_bytes (by decide)
    obtain ⟨top, below, bottom, rest, hcovers, hcovers', -, hfault⟩ := hoverread hnot hinexact
    obtain ⟨rfl, rfl⟩ := (htop pairOfWords).unique hcovers
    obtain ⟨rfl, rfl⟩ := hbottom.unique hcovers'
    exact hfault

end GmlDecompiler

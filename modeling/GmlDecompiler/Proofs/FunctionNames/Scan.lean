import GmlDecompiler.FunctionNames
import Mathlib.Data.List.Induction
import Mathlib.Data.List.Pairwise
import Mathlib.Logic.Relation

/-!
# Scanning scripts side by side

Scripts may be scanned at the same time. Each of them inserts its bindings in order, but between two
of its insertions any other script may make one of its own. If no two scripts bind the same function
or give the same name, their insertions commute, so that every such scan ends with the names that
are found by scanning one script after another, in whatever order. If no script binds a function or
gives a name twice either, the two tables are inverse to each other and hold every binding.
-/

namespace GmlDecompiler

/-- Two bindings share neither the function nor the name. -/
def Binding.Apart (a b : String × String) : Prop :=
  a.1 ≠ b.1 ∧ a.2 ≠ b.2

instance (a b : String × String) : Decidable (Binding.Apart a b) :=
  inferInstanceAs (Decidable (_ ∧ _))

/-- It does not matter which of two bindings comes first. -/
theorem Binding.Apart.symm {a b : String × String} (hapart : Apart a b) : Apart b a :=
  ⟨hapart.1.symm, hapart.2.symm⟩

/-- No function and no name occurs in the bindings of both scripts. -/
def Script.Apart (s t : Script) : Prop :=
  ∀ a ∈ s.bindings, ∀ b ∈ t.bindings, Binding.Apart a b

instance (s t : Script) : Decidable (s.Apart t) :=
  inferInstanceAs (Decidable (∀ a ∈ s.bindings, ∀ b ∈ t.bindings, Binding.Apart a b))

instance : Std.Symm Script.Apart where
  symm _ _ hapart b hb a ha := (hapart a ha b hb).symm

namespace FunctionNames

variable {names : FunctionNames} {bindings : List (String × String)} {function name : String}

/-- The function of an inserted binding has its name, and the others are as before. -/
theorem nameOf?_insert (names : FunctionNames) (b : String × String) (function : String) :
    (names.insert b).nameOf? function =
      if b.1 = function then some b.2 else names.nameOf? function := by
  simp only [nameOf?, insert, Std.ExtTreeMap.getElem?_insert, Std.LawfulEqCmp.compare_eq_iff_eq]

/-- The name of an inserted binding is of its function, and the others are as before. -/
theorem function?_insert (names : FunctionNames) (b : String × String) (name : String) :
    (names.insert b).function? name = if b.2 = name then some b.1 else names.function? name := by
  simp only [function?, insert, Std.ExtTreeMap.getElem?_insert, Std.LawfulEqCmp.compare_eq_iff_eq]

/-- Several bindings are inserted one after another. -/
theorem insertAll_cons (names : FunctionNames) (b : String × String)
    (bindings : List (String × String)) :
    names.insertAll (b :: bindings) = (names.insert b).insertAll bindings :=
  rfl

/-- Names are known by what they answer. -/
theorem ext_answers {first second : FunctionNames}
    (hnames : ∀ function, first.nameOf? function = second.nameOf? function)
    (hfunctions : ∀ name, first.function? name = second.function? name) : first = second := by
  have hbyFunction : first.byFunction = second.byFunction := Std.ExtTreeMap.ext_getElem? hnames
  have hbyName : first.byName = second.byName := Std.ExtTreeMap.ext_getElem? hfunctions
  cases first
  cases second
  simp_all

/-- Two bindings that are apart may be inserted in either order. -/
theorem insert_comm {a b : String × String} (hapart : Binding.Apart a b) (names : FunctionNames) :
    (names.insert a).insert b = (names.insert b).insert a := by
  obtain ⟨hfunction, hname⟩ := hapart
  apply ext_answers
  · intro function
    simp only [nameOf?_insert]
    by_cases ha : a.1 = function
    · have hb : b.1 ≠ function := fun hb => hfunction (ha.trans hb.symm)
      simp [ha, hb]
    · simp [ha]
  · intro name
    simp only [function?_insert]
    by_cases ha : a.2 = name
    · have hb : b.2 ≠ name := fun hb => hname (ha.trans hb.symm)
      simp [ha, hb]
    · simp [ha]

/-- A binding may be inserted before others that it is apart from. -/
theorem insertAll_insert {b : String × String} (hapart : ∀ a ∈ bindings, Binding.Apart a b)
    (names : FunctionNames) :
    (names.insert b).insertAll bindings = (names.insertAll bindings).insert b := by
  induction bindings generalizing names with
  | nil => rfl
  | cons a bindings ih =>
    obtain ⟨ha, hrest⟩ := List.forall_mem_cons.mp hapart
    have hswap : (names.insert b).insert a = (names.insert a).insert b :=
      (insert_comm ha names).symm
    calc (names.insert b).insertAll (a :: bindings)
        = ((names.insert a).insert b).insertAll bindings := congrArg (insertAll · bindings) hswap
      _ = ((names.insert a).insertAll bindings).insert b := ih hrest _

/-- Two runs of bindings that are apart may be inserted in either order. -/
theorem insertAll_comm {first second : List (String × String)}
    (hapart : ∀ a ∈ first, ∀ b ∈ second, Binding.Apart a b) (names : FunctionNames) :
    (names.insertAll first).insertAll second = (names.insertAll second).insertAll first := by
  induction second generalizing names with
  | nil => rfl
  | cons b second ih =>
    have hb : ∀ a ∈ first, Binding.Apart a b := fun a ha => hapart a ha b List.mem_cons_self
    have hrest : ∀ a ∈ first, ∀ c ∈ second, Binding.Apart a c :=
      fun a ha c hc => hapart a ha c (List.mem_cons_of_mem b hc)
    calc (names.insertAll first).insertAll (b :: second)
        = ((names.insert b).insertAll first).insertAll second := by
          rw [insertAll_cons, insertAll_insert hb]
      _ = ((names.insert b).insertAll second).insertAll first := ih hrest _

/-- Scripts that are apart may be scanned in any order. -/
theorem ofScripts_perm {scripts order : List Script} (hperm : order.Perm scripts)
    (hapart : scripts.Pairwise Script.Apart) : ofScripts order = ofScripts scripts := by
  have hfold (scripts : List Script) :
      ofScripts scripts = scripts.foldl (fun names s => names.insertAll s.bindings) {} :=
    List.foldl_flatMap
  rw [hfold, hfold]
  refine (hperm.symm.foldl_eq' ?_ ({} : FunctionNames)).symm
  intro s hs t ht names
  by_cases hsame : s = t
  · rw [hsame]
  · exact insertAll_comm (hapart.forall hs ht hsame) names

/-- A function that is bound to one name only gets that name. -/
theorem nameOf?_insertAll (hmem : (function, name) ∈ bindings)
    (honly : ∀ other, (function, other) ∈ bindings → other = name) :
    (names.insertAll bindings).nameOf? function = some name := by
  induction bindings using List.reverseRecOn with
  | nil => cases hmem
  | append_singleton bindings b ih =>
    rw [insertAll_append]
    change ((names.insertAll bindings).insert b).nameOf? function = some name
    rw [nameOf?_insert]
    by_cases hb : b.1 = function
    · have hlast : (function, b.2) ∈ bindings ++ [b] := by simp [← hb]
      rw [if_pos hb, honly b.2 hlast]
    · rw [if_neg hb]
      have hearlier : (function, name) ∈ bindings := by
        rcases List.mem_append.mp hmem with hearlier | hlast
        · exact hearlier
        · have heq : (function, name) = b := List.mem_singleton.mp hlast
          exact absurd (congrArg Prod.fst heq).symm hb
      exact ih hearlier fun other hother => honly other (List.mem_append_left _ hother)

/-- The names hold some bindings and no others, each in both tables. -/
structure Holds (names : FunctionNames) (bindings : List (String × String)) : Prop where
  nameOf?_iff : ∀ function name,
    names.nameOf? function = some name ↔ (function, name) ∈ bindings
  function?_iff : ∀ name function,
    names.function? name = some function ↔ (function, name) ∈ bindings
  size_eq : names.size = bindings.length

/-- Empty tables hold no binding. -/
theorem holds_empty : Holds {} [] where
  nameOf?_iff := by simp [nameOf?]
  function?_iff := by simp [function?]
  size_eq := Std.ExtTreeMap.size_empty

/-- A binding that is apart from those that are held is held besides them. -/
theorem Holds.insert {b : String × String} (hholds : names.Holds bindings)
    (hapart : ∀ a ∈ bindings, Binding.Apart a b) : (names.insert b).Holds (bindings ++ [b]) where
  nameOf?_iff := by
    intro function name
    rw [nameOf?_insert, List.mem_append, List.mem_singleton, ← hholds.nameOf?_iff, Prod.ext_iff]
    by_cases hb : b.1 = function
    · have hnew : names.nameOf? function ≠ some name := fun hold =>
        (hapart _ ((hholds.nameOf?_iff _ _).mp hold)).1 hb.symm
      simp [hb, hnew, eq_comm]
    · simp [hb, Ne.symm hb]
  function?_iff := by
    intro name function
    rw [function?_insert, List.mem_append, List.mem_singleton, ← hholds.function?_iff, Prod.ext_iff]
    by_cases hb : b.2 = name
    · have hnew : names.function? name ≠ some function := fun hold =>
        (hapart _ ((hholds.function?_iff _ _).mp hold)).2 hb.symm
      simp [hb, hnew, eq_comm]
    · simp [hb, Ne.symm hb]
  size_eq := by
    have hnew : names.byFunction.contains b.1 = false := by
      rw [Bool.eq_false_iff]
      intro hcontains
      have hmem : b.1 ∈ names.byFunction := Std.ExtTreeMap.contains_iff_mem.mp hcontains
      rw [Std.ExtTreeMap.mem_iff_isSome_getElem?] at hmem
      obtain ⟨name, hname⟩ := Option.isSome_iff_exists.mp hmem
      exact (hapart _ ((hholds.nameOf?_iff _ _).mp hname)).1 rfl
    have hsize : (names.insert b).size = names.size + 1 := by
      simp only [size, FunctionNames.insert, Std.ExtTreeMap.size_insert, hnew, Bool.false_eq_true,
        if_false]
    rw [hsize, hholds.size_eq, List.length_append]
    rfl

/-- Bindings that are apart from each other are all held. -/
theorem holds_insertAll (hapart : bindings.Pairwise Binding.Apart) :
    (insertAll {} bindings).Holds bindings := by
  induction bindings using List.reverseRecOn with
  | nil => exact holds_empty
  | append_singleton bindings b ih =>
    obtain ⟨hearlier, -, hlast⟩ := List.pairwise_append.mp hapart
    rw [insertAll_append]
    exact (ih hearlier).insert fun a ha => hlast a ha b List.mem_cons_self

/-- A scan of several scripts under way. -/
structure Scan where
  /-- The names found so far. -/
  names : FunctionNames := {}
  /-- For each script, the bindings that it has yet to insert. -/
  waiting : List (List (String × String))

namespace Scan

/-- A scan before anything is inserted. -/
def start (scripts : List Script) : Scan where
  waiting := scripts.map Script.bindings

/-- One of the scripts inserts its next binding into both tables. -/
inductive Step : Scan → Scan → Prop
  | insert (names : FunctionNames) (before after : List (List (String × String)))
      (b : String × String) (rest : List (String × String)) :
    Step ⟨names, before ++ (b :: rest) :: after⟩ ⟨names.insert b, before ++ rest :: after⟩

/-- The scan gets from one state to another by the insertions of its scripts, in any order that
keeps the order of each script. -/
def Reaches : Scan → Scan → Prop :=
  Relation.ReflTransGen Step

/-- No script has anything left to insert. -/
def Finished (s : Scan) : Prop :=
  ∀ rest ∈ s.waiting, rest = []

/-- What different scripts have yet to insert is apart. -/
def Apart (s : Scan) : Prop :=
  s.waiting.Pairwise fun first second => ∀ a ∈ first, ∀ b ∈ second, Binding.Apart a b

/-- The names that are found if the scripts go on one after another. -/
def inTurn (s : Scan) : FunctionNames :=
  s.names.insertAll s.waiting.flatten

variable {s t : Scan} {scripts : List Script}

/-- What different scripts insert is apart if the scripts are. -/
theorem apart_start (hapart : scripts.Pairwise Script.Apart) : (start scripts).Apart :=
  List.pairwise_map.mpr hapart

/-- Going on one after another from the start is scanning the scripts in turn. -/
theorem inTurn_start (scripts : List Script) : (start scripts).inTurn = ofScripts scripts := by
  rw [inTurn, start, ofScripts, List.flatMap_def]

/-- A scan that is finished has found all names. -/
theorem inTurn_of_finished (hfinished : s.Finished) : s.inTurn = s.names := by
  have hnothing : s.waiting.flatten = [] := List.flatten_eq_nil_iff.mpr hfinished
  rw [inTurn, hnothing]
  rfl

/-- An insertion keeps what is still to be inserted apart. -/
theorem Step.apart (hstep : Step s t) (hapart : s.Apart) : t.Apart := by
  obtain ⟨names, before, after, b, rest⟩ := hstep
  simp only [Apart, List.pairwise_append, List.pairwise_cons, List.forall_mem_cons] at hapart ⊢
  obtain ⟨hbefore, ⟨hcurrent, hafter⟩, hacross⟩ := hapart
  refine ⟨hbefore, ⟨fun later hlater => (hcurrent later hlater).2, hafter⟩, ?_⟩
  intro earlier hearlier
  obtain ⟨hnext, hlater⟩ := hacross earlier hearlier
  exact ⟨fun a ha => (hnext a ha).2, hlater⟩

/-- An insertion does not change what is found in the end: the next binding of a script may be
inserted before everything that the scripts in front of it have yet to insert. -/
theorem Step.inTurn_eq (hstep : Step s t) (hapart : s.Apart) : t.inTurn = s.inTurn := by
  obtain ⟨names, before, after, b, rest⟩ := hstep
  have hearlier : ∀ a ∈ before.flatten, Binding.Apart a b := by
    intro a ha
    obtain ⟨earlier, hbefore, ha⟩ := List.mem_flatten.mp ha
    have hacross := (List.pairwise_append.mp hapart).2.2 earlier hbefore
    exact hacross (b :: rest) List.mem_cons_self a ha b List.mem_cons_self
  have hfirst : (names.insert b).insertAll before.flatten =
      (names.insertAll before.flatten).insert b := insertAll_insert hearlier names
  simp only [inTurn, List.flatten_append, List.flatten_cons, List.cons_append, insertAll_append,
    insertAll_cons]
  rw [hfirst]

/-- A run of insertions keeps what is still to be inserted apart, and does not change what is found
in the end. -/
theorem Reaches.inTurn_eq (hreaches : s.Reaches t) (hapart : s.Apart) :
    t.Apart ∧ t.inTurn = s.inTurn := by
  induction hreaches with
  | refl => exact ⟨hapart, rfl⟩
  | tail _ hstep ih => exact ⟨hstep.apart ih.1, (hstep.inTurn_eq ih.1).trans ih.2⟩

/-- A scan that is not finished can go on, and every insertion leaves one binding less. -/
theorem exists_step (hunfinished : ¬ s.Finished) :
    ∃ t, Step s t ∧ t.waiting.flatten.length < s.waiting.flatten.length := by
  obtain ⟨names, waiting⟩ := s
  simp only [Finished, not_forall] at hunfinished
  obtain ⟨rest, hrest, hwaits⟩ := hunfinished
  obtain ⟨before, after, rfl⟩ := List.append_of_mem hrest
  obtain ⟨b, rest, rfl⟩ := List.exists_cons_of_ne_nil hwaits
  refine ⟨_, .insert names before after b rest, ?_⟩
  simp only [List.flatten_append, List.flatten_cons, List.length_append, List.length_cons]
  omega

/-- Every scan can be finished. -/
theorem exists_finished (s : Scan) : ∃ last, s.Reaches last ∧ last.Finished := by
  induction hcount : s.waiting.flatten.length using Nat.strongRecOn generalizing s with
  | ind count ih =>
    by_cases hfinished : s.Finished
    · exact ⟨s, .refl, hfinished⟩
    · obtain ⟨t, hstep, hless⟩ := exists_step hfinished
      obtain ⟨last, hlast, hend⟩ := ih _ (hcount ▸ hless) t rfl
      exact ⟨last, .head hstep hlast, hend⟩

end Scan

/-- Scripts that are apart may be scanned side by side. Every scan that is under way can be
finished, and however the insertions of the scripts were interleaved, it ends with the names that
are found by scanning one script after another in any order. If no script binds a function or gives
a name twice, each table then undoes the other, and every binding counts. -/
theorem scan_independent_of_order (scripts : List Script)
    (hapart : scripts.Pairwise Script.Apart) :
    (∀ s, (Scan.start scripts).Reaches s → ∃ last, s.Reaches last ∧ last.Finished) ∧
    ∀ last, (Scan.start scripts).Reaches last → last.Finished →
      (∀ order, order.Perm scripts → last.names = ofScripts order) ∧
      ((∀ s ∈ scripts, s.bindings.Pairwise Binding.Apart) →
        (∀ function name,
          last.names.nameOf? function = some name ↔ last.names.function? name = some function) ∧
        last.names.size = (scripts.flatMap Script.bindings).length) := by
  refine ⟨fun s _ => s.exists_finished, fun last hreaches hfinished => ?_⟩
  have hnames : last.names = ofScripts scripts := by
    obtain ⟨-, hsame⟩ := hreaches.inTurn_eq (Scan.apart_start hapart)
    rw [Scan.inTurn_of_finished hfinished, Scan.inTurn_start] at hsame
    exact hsame
  constructor
  · intro order hperm
    rw [hnames, ofScripts_perm hperm hapart]
  · intro honce
    have hall : (scripts.flatMap Script.bindings).Pairwise Binding.Apart :=
      List.pairwise_flatMap.mpr ⟨honce, hapart⟩
    have hholds : last.names.Holds (scripts.flatMap Script.bindings) := by
      rw [hnames]
      exact holds_insertAll hall
    constructor
    · intro function name
      rw [hholds.nameOf?_iff, hholds.function?_iff]
    · exact hholds.size_eq

end FunctionNames

namespace Sample

/-- The code that binds a function to its name. -/
def methodTail (function name : String) : List Instruction :=
  [(Instruction.pushInt32 0).withFunction function 0, .convert .int32 .variable, .pushImmediate (-1),
    .convert .int32 .variable, .call Reserved.method 2, .duplicate .variable 0 0,
    .pushImmediate (-6), .popVariable ⟨name, .own⟩ .stackTop .variable]

/-- The code that binds a constructor to its name. -/
def constructorTail (function name : String) : List Instruction :=
  [(Instruction.pushInt32 0).withFunction function 0, .convert .int32 .variable,
    .call Reserved.nullObject 0, .call Reserved.method 2, .duplicate .variable 0 0,
    .pushImmediate (-6), .popVariable ⟨name, .own⟩ .stackTop .variable]

/-- A script of two functions, and one of a constructor. -/
def libraries : List Script :=
  [⟨"gml_GlobalScript_util", [[], [.block ⟨0, methodTail "gml_Script_clamp01" "clamp01"⟩],
      [.block ⟨0, methodTail "gml_Script_lerp01" "lerp01"⟩]]⟩,
    ⟨"gml_GlobalScript_vector", [[], [.block ⟨0, constructorTail "gml_Script_Vec2" "Vec2"⟩]]⟩]

/-- The names after the constructor was inserted between the two functions. -/
def interleavedNames : FunctionNames :=
  .insertAll {} [("gml_Script_clamp01", "clamp01"), ("gml_Script_Vec2", "Vec2"),
    ("gml_Script_lerp01", "lerp01")]

end Sample

/-- Two libraries whose scans are interleaved. The names are those of scanning them in the opposite
order. -/
theorem FunctionNames.scan_independent_of_order_libraries :
    Sample.libraries.Pairwise Script.Apart ∧
      (∀ s ∈ Sample.libraries, s.bindings.Pairwise Binding.Apart) ∧
      (Scan.start Sample.libraries).Reaches ⟨Sample.interleavedNames, [[], []]⟩ ∧
      Sample.interleavedNames = ofScripts Sample.libraries.reverse ∧
      Sample.interleavedNames.function? "Vec2" = some "gml_Script_Vec2" ∧
      Sample.interleavedNames.size = 3 := by
  have hapart : Sample.libraries.Pairwise Script.Apart := by decide +kernel
  have honce : ∀ s ∈ Sample.libraries, s.bindings.Pairwise Binding.Apart := by decide +kernel
  have hwaiting : Sample.libraries.map Script.bindings =
      [[("gml_Script_clamp01", "clamp01"), ("gml_Script_lerp01", "lerp01")],
        [("gml_Script_Vec2", "Vec2")]] := by decide +kernel
  have hrun : (Scan.start Sample.libraries).Reaches ⟨Sample.interleavedNames, [[], []]⟩ := by
    rw [Scan.start, hwaiting]
    have hfirst := Scan.Step.insert {} [] [[("gml_Script_Vec2", "Vec2")]]
      ("gml_Script_clamp01", "clamp01") [("gml_Script_lerp01", "lerp01")]
    have hsecond := Scan.Step.insert (insertAll {} [("gml_Script_clamp01", "clamp01")])
      [[("gml_Script_lerp01", "lerp01")]] [] ("gml_Script_Vec2", "Vec2") []
    have hthird := Scan.Step.insert
      (insertAll {} [("gml_Script_clamp01", "clamp01"), ("gml_Script_Vec2", "Vec2")])
      [] [[]] ("gml_Script_lerp01", "lerp01") []
    exact .head hfirst (.head hsecond (.single hthird))
  obtain ⟨-, hlast⟩ := scan_independent_of_order Sample.libraries hapart
  obtain ⟨hnames, hcomplete⟩ := hlast _ hrun (by simp [Scan.Finished])
  obtain ⟨hinverse, hsize⟩ := hcomplete honce
  refine ⟨hapart, honce, hrun, hnames _ (List.reverse_perm _), ?_, ?_⟩
  · exact (hinverse _ _).mp (by decide +kernel)
  · have hcount : (Sample.libraries.flatMap Script.bindings).length = 3 := by decide +kernel
    rw [← hcount]
    exact hsize

end GmlDecompiler

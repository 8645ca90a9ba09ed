import GmlDecompiler.Proofs.Json.Deletion
import Mathlib.Logic.Relation

/-!
# Reading undoes writing

The readers do not notice a deletion: what they read from a document, they read from it after an
optional member that had its default was left out. Together with the round trip of every value
this gives `reading_undoes_writing`, for any number of deletions.
-/

namespace GmlDecompiler

open Json Site

/-- Reading a variable does not notice a deletion: its instance type is optional. -/
theorem VarRef.stable (nested : Bool) : Stable .varRef (VarRef.ofJson? nested) := by
  refine Stable.record (fun _ => Site.noConfusion) fun r r' h => ?_
  refine .bind ((h "name" (by simp)).required Stable.plain) fun name => ?_
  exact .bind ((h "instance_type" (by simp)).optional rfl Stable.plain) fun _ => .refl _

/-- Reading an instruction does not notice a deletion. All its members but the kind are optional. -/
theorem Instruction.stable (nested : Bool) :
    Stable .instruction (Instruction.ofJson? nested) := by
  refine Stable.record (fun _ => Site.noConfusion) fun r r' h => ?_
  simp only [RecordKept, memberNames, List.forall_mem_cons] at h
  obtain ⟨haddress, hkind, hextOp, hcomparison, htype1, htype2, howner, hreference, htarget,
    hfunction, hliteral, hargCount, hdupSize, hswapSize, -⟩ := h
  refine .bind (haddress.optional (asUInt32?_int 0) Stable.plain) fun _ => ?_
  refine .bind (hkind.required Stable.plain) fun _ => ?_
  refine .bind (hextOp.optional rfl Stable.plain) fun _ => ?_
  refine .bind (hcomparison.optional rfl Stable.plain) fun _ => ?_
  refine .bind (htype1.optional rfl Stable.plain) fun _ => ?_
  refine .bind (htype2.optional rfl Stable.plain) fun _ => ?_
  refine .bind (howner.optional rfl Stable.plain) fun _ => ?_
  refine .bind (hreference.optional rfl Stable.plain) fun _ => ?_
  refine .bind (htarget.optional rfl (VarRef.stable nested).option) fun _ => ?_
  refine .bind (hfunction.optional rfl Stable.plain) fun _ => ?_
  refine .bind (hliteral.optional rfl Stable.plain) fun _ => ?_
  refine .bind (hargCount.optional (asUInt16?_int 0) Stable.plain) fun _ => ?_
  refine .bind (hdupSize.optional (asUInt8?_int 0) Stable.plain) fun _ => ?_
  exact .bind (hswapSize.optional (asUInt8?_int 0) Stable.plain) fun _ => .refl _

/-! ### Structured code -/

/-- A run of instructions is read from what a tagged record holds after a deletion. -/
theorem CodeBlock.persists_ofContent? {p : Site} {related : Site → Json → Json → Prop}
    {t t' : Tagged Json} (h : TaggedKept p related t t')
    (hdefault : p.default? "start_address" = some (.int 0))
    (hstart : ∀ v v', ¬ related (p.part "start_address") v v')
    (hrequired : p.default? "instructions" = none)
    (hcode : ∀ v v', related (p.part "instructions") v v' →
      (Site.list .instruction).Deletes v v') :
    Persists (CodeBlock.ofContent? id t.content) (CodeBlock.ofContent? id t'.content) := by
  refine h.bind fun r r' hkept => ?_
  simp only [RecordKept, memberNames, List.forall_mem_cons, hdefault, hrequired] at hkept
  obtain ⟨hstartKept, hcodeKept, -⟩ := hkept
  refine .bind (hstartKept.optional rfl fun v v' hv => absurd hv (hstart v v')) fun _ => ?_
  exact .bind (hcodeKept.required fun v v' hv =>
    (Instruction.stable true).list v v' (hcode v v' hv)) fun _ => .refl _

namespace Node

/-- A record with its members viewed. -/
def viewRecord (r : Record Json) : Record View := fun name => (r name).map view

/-- A tagged record with its members viewed. -/
def viewTagged (t : Tagged Json) : Tagged View :=
  ⟨view t.tag, fun names => (t.content names).map viewRecord⟩

/-- A required member of a record of views is read through its view. -/
theorem required_viewRecord {α : Type} (r : Record Json) (name : String)
    (read : View → Option α) :
    Record.required (viewRecord r) name read = Record.required r name fun j => read (view j) := by
  simp only [Record.required, viewRecord]
  cases r name <;> rfl

/-- An optional member of a record of views is read through its view. -/
theorem optional_viewRecord {α : Type} (r : Record Json) (name : String) (default : α)
    (read : View → Option α) :
    Record.optional (viewRecord r) name default read =
      Record.optional r name default fun j => read (view j) := by
  simp only [Record.optional, viewRecord]
  cases r name <;> rfl

/-- The kind of a record is found in the views of its members as in the members. -/
theorem taggedMembers?_viewMembers (members : List (MemberName × Json)) :
    taggedMembers? (viewMembers members) = (taggedMembers? members).map viewTagged := by
  have hcount (name : String) :
      countMembers (viewMembers members) name = countMembers members name := by
    rw [viewMembers_eq_map, countMembers, List.countP_map]
    rfl
  have hmember (name : String) :
      member? (viewMembers members) name = (member? members name).map view := by
    rw [viewMembers_eq_map, member?, member?, List.find?_map, Option.map_map, Option.map_map]
    rfl
  have hrecord (names : List String) : recordOfMembers? names (viewMembers members) =
      (recordOfMembers? names members).map viewRecord := by
    simp only [recordOfMembers?, hcount]
    split
    · exact congrArg some (funext hmember)
    · rfl
  simp only [taggedMembers?, hcount, hmember, hrecord]
  split
  · rw [Option.map_map, Option.map_map]
    rfl
  · rfl

/-- Straight code is read from the sources of the views, which are the values themselves. -/
theorem ofContent?_viewTagged (t : Tagged Json) :
    CodeBlock.ofContent? View.source (viewTagged t).content =
      CodeBlock.ofContent? id t.content := by
  simp only [CodeBlock.ofContent?, viewTagged]
  cases t.content CodeBlock.memberNames with
  | none => rfl
  | some r =>
    simp only [Option.map_some, Option.bind_eq_bind, Option.bind_some, required_viewRecord,
      optional_viewRecord, view_source, id]

/-- What a document is read as is kept by a deletion, as a node where a node stands and so on. -/
structure ViewKept (p : Site) (j j' : Json) : Prop where
  /-- There was a deletion. -/
  deletes : p.Deletes j j'
  /-- A node is read again. -/
  node : p = .node → Persists (view j).node (view j').node
  /-- A region is read again. -/
  region : p = .list .node → Persists (view j).region (view j').region
  /-- A list of regions is read again. -/
  regions : p = .list (.list .node) → Persists (view j).regions (view j').regions

namespace ViewKept

variable {j j' : Json}

/-- A plain value, of which there is nothing to delete, is seen as before. -/
theorem plain {α : Type} {read : Json → Option α} :
    ∀ v v', ViewKept .plain v v' → Persists (read v) (read v') :=
  fun _ _ h => absurd h.deletes not_deletes_plain

/-- A region is read node by node, and each node is read as before. -/
theorem region? (h : ViewKept (.list .node) j j') :
    Persists (view j).region? (view j').region? := by
  obtain ⟨hne, hne'⟩ := h.deletes.ne_null
  have hregion {j : Json} (hne : j ≠ .null) : (view j).region? = (view j).region.map some := by
    unfold View.region?
    rw [view_source]
    split
    · exact absurd rfl hne
    · rfl
  rw [hregion hne, hregion hne']
  exact (h.region rfl).map some

end ViewKept

section Contents

variable {r r' : Record Json}

/-- Reading a branch does not notice a deletion. -/
theorem persists_branchOfContent?
    (h : RecordKept .node ViewKept ["then_branch", "else_branch"] r r') :
    Persists (branchOfContent? (viewRecord r)) (branchOfContent? (viewRecord r')) := by
  simp only [RecordKept, List.forall_mem_cons] at h
  obtain ⟨hthen, helse, -⟩ := h
  simp only [branchOfContent?, required_viewRecord, optional_viewRecord]
  refine .bind (hthen.required fun _ _ h => h.region rfl) fun _ => ?_
  exact .bind (helse.optional rfl fun _ _ h => h.region?) fun _ => .refl _

/-- Reading a chain does not notice a deletion. -/
theorem persists_chainOfContent? (h : RecordKept .node ViewKept ["logic", "conditions"] r r') :
    Persists (chainOfContent? (viewRecord r)) (chainOfContent? (viewRecord r')) := by
  simp only [RecordKept, List.forall_mem_cons] at h
  obtain ⟨hlogic, hconditions, -⟩ := h
  simp only [chainOfContent?, required_viewRecord]
  refine .bind (hlogic.required ViewKept.plain) fun _ => ?_
  exact .bind (hconditions.required fun _ _ h => h.regions rfl) fun _ => .refl _

/-- Reading a loop does not notice a deletion. -/
theorem persists_loopOfContent? (h : RecordKept .node ViewKept ["condition", "body"] r r') :
    Persists (loopOfContent? (viewRecord r)) (loopOfContent? (viewRecord r')) := by
  simp only [RecordKept, List.forall_mem_cons] at h
  obtain ⟨hcondition, hbody, -⟩ := h
  simp only [loopOfContent?, required_viewRecord]
  refine .bind (hcondition.required fun _ _ h => h.region rfl) fun _ => ?_
  exact .bind (hbody.required fun _ _ h => h.region rfl) fun _ => .refl _

/-- Reading a guarded block does not notice a deletion. -/
theorem persists_guardedOfContent? (h : RecordKept .node ViewKept ["body", "finally"] r r') :
    Persists (guardedOfContent? (viewRecord r)) (guardedOfContent? (viewRecord r')) := by
  simp only [RecordKept, List.forall_mem_cons] at h
  obtain ⟨hbody, hcleanup, -⟩ := h
  simp only [guardedOfContent?, required_viewRecord, optional_viewRecord]
  refine .bind (hbody.required fun _ _ h => h.region rfl) fun _ => ?_
  exact .bind (hcleanup.optional rfl fun _ _ h => h.region?) fun _ => .refl _

/-- Reading a routine does not notice a deletion. -/
theorem persists_routineOfContent?
    (h : RecordKept .node ViewKept
      ["code_entry_name", "function_name", "is_constructor", "argument_count", "body"] r r') :
    Persists (routineOfContent? (viewRecord r)) (routineOfContent? (viewRecord r')) := by
  simp only [RecordKept, List.forall_mem_cons] at h
  obtain ⟨hcodeName, hname, hconstructor, hargCount, hbody, -⟩ := h
  simp only [routineOfContent?, required_viewRecord, optional_viewRecord]
  refine .bind (hcodeName.required ViewKept.plain) fun _ => ?_
  refine .bind (hname.optional rfl ViewKept.plain) fun _ => ?_
  refine .bind (hconstructor.optional rfl ViewKept.plain) fun _ => ?_
  refine .bind (hargCount.optional rfl ViewKept.plain) fun _ => ?_
  exact .bind (hbody.required fun _ _ h => h.region rfl) fun _ => .refl _

variable {t t' : Tagged Json} (h : TaggedKept .node ViewKept t t')

include h

/-- The content of a record of some kind is read as before by a reader that persists, since a
deletion adds no member that would not be allowed. -/
theorem persists_content {names : List String} {f : Record View → Option Node}
    (hf : ∀ r r', RecordKept .node ViewKept names r r' →
      Persists (f (viewRecord r)) (f (viewRecord r'))) :
    Persists (((viewTagged t).content names).bind f) (((viewTagged t').content names).bind f) := by
  simp only [viewTagged, Option.bind_map]
  exact h.bind hf

/-- Reading a record by its kind does not notice a deletion. The kind itself cannot be deleted. -/
theorem persists_ofTagged? : Persists (ofTagged? (viewTagged t)) (ofTagged? (viewTagged t')) := by
  have htag : (viewTagged t').tag = (viewTagged t).tag := congrArg view h.tag
  unfold ofTagged?
  rw [htag, ofContent?_viewTagged, ofContent?_viewTagged]
  refine Persists.bind (.refl _) fun kind => ?_
  refine .ite ?block <| .ite ?branch <| .ite ?chain <| .ite ?loop <| .ite ?leave <| .ite ?again <|
    .ite ?guarded <| .ite ?statics <| .ite ?routine <| .refl _
  case block =>
    exact (CodeBlock.persists_ofContent? h rfl (fun _ _ h => not_deletes_plain h.deletes) rfl
      fun _ _ h => h.deletes).map _
  case branch => exact persists_content h fun _ _ => persists_branchOfContent?
  case chain => exact persists_content h fun _ _ => persists_chainOfContent?
  case loop => exact persists_content h fun _ _ => persists_loopOfContent?
  case leave =>
    simp only [Option.map_eq_bind]
    exact persists_content h fun _ _ _ => .refl _
  case again =>
    simp only [Option.map_eq_bind]
    exact persists_content h fun _ _ _ => .refl _
  case guarded => exact persists_content h fun _ _ => persists_guardedOfContent?
  case statics =>
    refine persists_content h fun r r' hkept => ?_
    simp only [RecordKept, List.forall_mem_cons] at hkept
    simp only [required_viewRecord]
    exact (hkept.1.required fun _ _ h => h.region rfl).map _
  case routine => exact persists_content h fun _ _ => persists_routineOfContent?

end Contents

/-- An object is read as a node again. -/
theorem persists_view_object {members members' : List (MemberName × Json)}
    (h : ObjectKept .node ViewKept members members') :
    Persists (view (.obj members)).node (view (.obj members')).node := by
  intro n hn
  simp only [view, taggedMembers?_viewMembers] at hn ⊢
  obtain ⟨viewed, hviewed, hn⟩ := Option.bind_eq_some_iff.mp hn
  obtain ⟨t, ht, rfl⟩ := Option.map_eq_some_iff.mp hviewed
  obtain ⟨t', ht', hkept⟩ := h.tagged rfl (fun _ _ h => not_deletes_plain h.deletes) ht
  rw [ht', Option.map_some, Option.bind_some]
  exact persists_ofTagged? hkept n hn

/-- A deletion keeps what the document is read as. The induction is on where it is; what the
readers make of the members is the induction hypothesis. -/
theorem viewKept_of_deletes {p : Site} {j j' : Json} (h : p.Deletes j j') : ViewKept p j j' := by
  induction h with
  | @drop p name value before after hdefault =>
    refine ⟨.drop hdefault, ?_, ?_, ?_⟩
    · rintro rfl
      exact persists_view_object (.drop hdefault)
    · rintro rfl
      cases hdefault
    · rintro rfl
      cases hdefault
  | member hmember ih =>
    refine ⟨.member hmember, ?_, ?_, ?_⟩
    · rintro rfl
      exact persists_view_object (.member ih)
    · rintro rfl
      exact absurd hmember not_deletes_plain
    · rintro rfl
      exact absurd hmember not_deletes_plain
  | item hitem ih =>
    refine ⟨.item hitem, nofun, fun hp => ?_, fun hp => ?_⟩
    · cases hp
      simp only [view, viewItems_eq_map, List.map_append, List.map_cons]
      exact .mapM (ih.node rfl) _ _
    · cases hp
      simp only [view, viewItems_eq_map, List.map_append, List.map_cons]
      exact .mapM (ih.region rfl) _ _

/-- Reading a node does not notice a deletion, however deep it is. -/
theorem stable : Stable .node ofJson? := by
  intro j j' h n hn
  unfold ofJson? at hn ⊢
  split at hn
  · rename_i hread
    rw [Bool.and_eq_true] at hread
    have htag : hasWordTag j' = true := by
      cases j with
      | obj members =>
        obtain ⟨members', rfl, hkept⟩ := h.object
        have hkind := (hkept.unchanged "kind" rfl fun _ _ => not_deletes_plain).1
        have htag : hasWordTag (.obj members') = hasWordTag (.obj members) := by
          simp only [hasWordTag, hkind]
        exact htag.trans hread.1
      | _ => cases h
    rw [if_pos (by rw [htag, h.isWhole hread.2]; rfl)]
    exact (viewKept_of_deletes h).node rfl n hn
  · cases hn

end Node

/-- Reading an entry does not notice a deletion. -/
theorem Entry.stable : Stable .entry Entry.ofJson? := by
  refine Stable.record (fun _ => Site.noConfusion) fun r r' h => ?_
  simp only [RecordKept, List.forall_mem_cons] at h
  obtain ⟨hname, hargCount, hbody, -⟩ := h
  refine .bind (hname.required Stable.plain) fun _ => ?_
  refine .bind (hargCount.optional rfl Stable.plain) fun _ => ?_
  exact .bind (hbody.required Node.stable.list) fun _ => .refl _

/-! ### Scripts and programs -/

/-- Reading a successor does not notice a deletion. -/
theorem Successor.stable : Stable .successor Successor.ofJson? := by
  intro j j' h s hs
  cases j with
  | obj members =>
    obtain ⟨members', rfl, hkept⟩ := h.object
    obtain ⟨t, ht, hs⟩ := Option.bind_eq_some_iff.mp hs
    by_cases hwhole : (Json.obj members).isWhole = true
    · rw [if_pos hwhole] at ht
      obtain ⟨t', ht', hkept⟩ := hkept.tagged rfl (fun _ _ => not_deletes_plain) ht
      refine bind_of_eq_some ((if_pos (h.isWhole hwhole)).trans ht') ?_
      simp only [hkept.tag]
      cases htag : t.tag with
      | str kind =>
        simp only [htag] at hs ⊢
        refine Persists.ite ?block (.ite ?other (.refl _)) s hs
        case block =>
          exact (CodeBlock.persists_ofContent? hkept rfl (fun _ _ => not_deletes_plain) rfl
            fun _ _ h => h).map _
        case other =>
          simp only [Option.map_eq_bind]
          exact hkept.bind fun _ _ _ => .refl _
      | _ =>
        simp only [htag] at hs
        cases hs
    · rw [if_neg hwhole] at ht
      cases ht
  | _ => cases h

/-- Reading a fragment of a script does not notice a deletion. -/
theorem Script.stable_fragment : Stable .fragment Script.fragmentOfJson? := by
  refine Stable.record (fun _ => Site.noConfusion) fun r r' h => ?_
  simp only [RecordKept, List.forall_mem_cons] at h
  exact h.1.optional rfl Successor.stable.list

/-- Reading a script does not notice a deletion. -/
theorem Script.stable : Stable .script Script.ofJson? := by
  refine Stable.record (fun _ => Site.noConfusion) fun r r' h => ?_
  simp only [RecordKept, List.forall_mem_cons] at h
  obtain ⟨hname, hfragments, -⟩ := h
  refine .bind (hname.required Stable.plain) fun _ => ?_
  exact .bind (hfragments.optional rfl Script.stable_fragment.list) fun _ => .refl _

/-- Reading a table of readings does not notice a deletion. -/
theorem Readings.stable : Stable .readings Readings.ofJson? := by
  refine Stable.record (fun _ => Site.noConfusion) fun r r' h => ?_
  simp only [RecordKept, List.forall_mem_cons] at h
  obtain ⟨hvariables, hfunctions, -⟩ := h
  refine .bind (hvariables.optional rfl Stable.plain) fun _ => ?_
  exact .bind (hfunctions.optional rfl Stable.plain) fun _ => .refl _

/-- Reading a program does not notice a deletion, in any of its parts. -/
theorem Program.stable : Stable .program Program.ofJson? := by
  refine Stable.record (fun _ => Site.noConfusion) fun r r' h => ?_
  simp only [RecordKept, List.forall_mem_cons] at h
  obtain ⟨hentries, henums, hscripts, hargumentNames, hreadings, -⟩ := h
  refine .bind (hentries.optional rfl Entry.stable.list) fun _ => ?_
  refine .bind (henums.optional rfl Stable.plain) fun _ => ?_
  refine .bind (hscripts.optional rfl Script.stable.list) fun _ => ?_
  refine .bind (hargumentNames.optional rfl Stable.plain) fun _ => ?_
  exact .bind (hreadings.optional rfl Readings.stable) fun _ => .refl _

/-! ### Any number of deletions -/

namespace Site

open Relation

variable {α : Type} {p : Site} {write : α → Json} {read : Json → Option α}

/-- Members that have their defaults may be left out all at once. -/
theorem deletes_all {before dropped after : List (MemberName × Json)}
    (h : ∀ m ∈ dropped, p.default? m.1.text = some m.2) :
    ReflTransGen p.Deletes (.obj (before ++ (dropped ++ after))) (.obj (before ++ after)) := by
  induction dropped with
  | nil => exact .refl
  | cons m dropped ih =>
    obtain ⟨hm, hdropped⟩ := List.forall_mem_cons.mp h
    exact .head (.drop hm) (ih hdropped)

/-- Deletions in a member are deletions in the object. -/
theorem deletes_in_member {name : MemberName} {value value' : Json}
    (before after : List (MemberName × Json))
    (h : ReflTransGen (p.part name.text).Deletes value value') :
    ReflTransGen p.Deletes (.obj (before ++ (name, value) :: after))
      (.obj (before ++ (name, value') :: after)) := by
  induction h with
  | refl => exact .refl
  | tail _ hstep ih => exact ih.tail (.member hstep)

/-- Deletions in an item are deletions in the list. -/
theorem deletes_in_item {value value' : Json} (before after : List Json)
    (h : ReflTransGen p.Deletes value value') :
    ReflTransGen (Site.list p).Deletes (.arr (before ++ value :: after))
      (.arr (before ++ value' :: after)) := by
  induction h with
  | refl => exact .refl
  | tail _ hstep ih => exact ih.tail (.item hstep)

/-- A reader that a deletion does not change is not changed by several. -/
theorem Stable.persists (h : Stable p read) {j j' : Json} (hj : ReflTransGen p.Deletes j j') :
    Persists (read j) (read j') := by
  induction hj with
  | refl => exact .refl _
  | tail _ hstep ih => exact fun a ha => h _ _ hstep a (ih a ha)

/-- Reading undoes writing: every value is read from the document it is written as, and from
what is left of the document when any optional members that have their defaults, anywhere in it,
are left out. -/
def Undoes (p : Site) (write : α → Json) (read : Json → Option α) : Prop :=
  ∀ a j, ReflTransGen p.Deletes (write a) j → read j = some a

/-- A stable reader that reads back what was written reads it back after any number of deletions. -/
theorem Stable.undoes (h : Stable p read) (hread : ReadsBack write read) : p.Undoes write read :=
  fun a _ hj => h.persists hj a (hread a)

end Site

/-- An instruction without operands may be written as its kind alone. -/
theorem Instruction.plain_deletes (opcode : Opcode) :
    Relation.ReflTransGen Site.instruction.Deletes (Instruction.plain opcode).toJson
      (.obj [("kind", .ofNamed opcode)]) := by
  let operands := (Instruction.plain opcode).members.drop 2
  have hoperands : ∀ m ∈ operands, Site.instruction.default? m.1.text = some m.2 := by
    simp only [operands, Instruction.members, List.drop_succ_cons, List.drop_zero,
      List.forall_mem_cons]
    exact ⟨rfl, rfl, rfl, rfl, rfl, rfl, rfl, rfl, rfl, rfl, rfl, rfl, List.forall_mem_nil _⟩
  have hfirst := @deletes_all .instruction (plain opcode |>.members.take 2) operands [] hoperands
  have hsecond := @deletes_all .instruction [] [("address", .int 0)] [("kind", .ofNamed opcode)]
    (by simp only [List.forall_mem_cons]; exact ⟨rfl, List.forall_mem_nil _⟩)
  exact hfirst.trans hsecond

/-- The kind alone is read as the instruction without operands. -/
theorem Instruction.ofJson?_kind (nested : Bool) (opcode : Opcode) :
    Instruction.ofJson? nested (.obj [("kind", .ofNamed opcode)]) = some (plain opcode) :=
  (Instruction.stable nested).undoes (Instruction.readsBack nested) _ _ (plain_deletes opcode)

/-- Reading undoes writing, for documents of every kind. The default of a member of an
instruction is what the instruction has without operands; an enum has no optional members. A
number is read back as a value of the document. A text of the document has no literal for a number
that is infinite or not a number, so for a text this covers the finite numbers only. -/
theorem reading_undoes_writing :
    (∀ opcode name, name ≠ "kind" →
      Site.instruction.default? name = member? (Instruction.plain opcode).members name) ∧
    (∀ nested, Site.instruction.Undoes Instruction.toJson (Instruction.ofJson? nested)) ∧
    Site.node.Undoes Node.toJson Node.ofJson? ∧
    Site.entry.Undoes Entry.toJson Entry.ofJson? ∧
    Site.plain.Undoes EnumDef.toJson EnumDef.ofJson? ∧
    Site.readings.Undoes Readings.toJson Readings.ofJson? ∧
    Site.script.Undoes Script.toJson Script.ofJson? ∧
    Site.program.Undoes Program.toJson Program.ofJson? :=
  ⟨fun opcode _ => default?_instruction opcode,
    fun nested => (Instruction.stable nested).undoes (Instruction.readsBack nested),
    Node.stable.undoes Node.readsBack,
    Entry.stable.undoes Entry.readsBack,
    Stable.plain.undoes EnumDef.readsBack,
    Readings.stable.undoes Readings.readsBack,
    Script.stable.undoes Script.readsBack,
    Program.stable.undoes Program.readsBack⟩

/-- A run of one instruction without operands. -/
def Sample.exits : Node := .block ⟨0, [Instruction.plain .exit]⟩

/-- What is left of the document of the run when everything optional is left out. -/
def Sample.exitsDocument : Json :=
  .obj [("kind", .str "block"), ("instructions", .arr [.obj [("kind", .str "Exit")]])]

/-- The run is read back after its address and all members of its instruction but the kind were left
out. -/
theorem reading_undoes_writing_exits :
    Relation.ReflTransGen Site.node.Deletes Sample.exits.toJson Sample.exitsDocument ∧
      Node.ofJson? Sample.exitsDocument = some Sample.exits := by
  have hstart := @deletes_all .node [("kind", .str "block")] [("start_address", .int 0)]
    [("instructions", .arr [(Instruction.plain .exit).toJson])]
    (by simp only [List.forall_mem_cons]; exact ⟨rfl, List.forall_mem_nil _⟩)
  have hcode := @deletes_in_member .node "instructions" _ _ [("kind", .str "block")] []
    (deletes_in_item [] [] (Instruction.plain_deletes .exit))
  have hdeletes : Relation.ReflTransGen Site.node.Deletes Sample.exits.toJson
      Sample.exitsDocument := hstart.trans hcode
  exact ⟨hdeletes, reading_undoes_writing.2.2.1 _ _ hdeletes⟩

end GmlDecompiler

import GmlDecompiler.Proofs.Json.Values
import Mathlib.Data.List.Nodup

/-!
# Reading back whole documents

Every kind of document is read as the value it was written from. A record is read member by
member; a node is read through its views, so the induction is on the node and gives the views of
its parts.
-/

namespace GmlDecompiler

namespace Json

/-- A step of a reader that succeeds. -/
theorem bind_of_eq_some {α β : Type} {x : Option α} {f : α → Option β} {a : α} {y : Option β}
    (hx : x = some a) (hf : f a = y) : (x >>= f) = y := by
  rw [hx]
  exact hf

section Records

variable {α β : Type} {r : Record β} {name : String} {value : β} {read : β → Option α} {a : α}

/-- A required member that is there is read as its value. -/
theorem Record.required_of_read (hvalue : r name = some value) (hread : read value = some a) :
    Record.required r name read = some a := by
  rw [Record.required, hvalue]
  exact hread

/-- An optional member that is there is read as its value, whatever the default is. -/
theorem Record.optional_of_read {default : α} (hvalue : r name = some value)
    (hread : read value = some a) : Record.optional r name default read = some a := by
  rw [Record.optional, hvalue]
  exact hread

/-- How often a name occurs, counted in the list of the names. -/
theorem countMembers_eq_count (members : List (MemberName × β)) (name : String) :
    countMembers members name = (members.map (·.1.text)).count name := by
  rw [countMembers, List.count, List.countP_map]
  rfl

/-- An object in which no name is repeated is a record of its members. -/
theorem recordOfMembers?_of_nodup {members : List (MemberName × β)}
    (h : (members.map (·.1.text)).Nodup) (names : List String) :
    recordOfMembers? names members = some (member? members) := by
  refine if_pos (List.all_eq_true.mpr fun name _ => decide_eq_true ?_)
  rw [countMembers_eq_count]
  exact List.nodup_iff_count.mp h name

/-- An object that begins with its kind, no name being repeated, is a tagged record. -/
theorem taggedMembers?_of_nodup {tag : β} {members : List (MemberName × β)}
    (h : ("kind" :: members.map (·.1.text)).Nodup) :
    taggedMembers? (("kind", tag) :: members) =
      some ⟨tag, fun _ => some (member? (("kind", tag) :: members))⟩ := by
  have hcount : countMembers (("kind", tag) :: members) "kind" = 1 := by
    rw [countMembers_eq_count]
    exact List.count_eq_one_of_mem h List.mem_cons_self
  have hnames : (List.map (fun m : MemberName × β => m.1.text) (("kind", tag) :: members)).Nodup :=
    h
  rw [taggedMembers?, if_pos hcount]
  simp only [recordOfMembers?_of_nodup hnames]
  rfl

end Records

/-! ### Documents in which every part has a value -/

section Whole

variable {α : Type} {write : α → Json}

/-- The items of an array have values exactly if each of them has. -/
theorem areWholeItems_iff {items : List Json} :
    areWholeItems items = true ↔ ∀ item ∈ items, item.isWhole = true := by
  induction items with
  | nil => simp [areWholeItems]
  | cons item items ih => simp [areWholeItems, ih]

/-- The members of an object have values exactly if each of them has. -/
theorem areWholeMembers_iff {members : List (MemberName × Json)} :
    areWholeMembers members = true ↔ ∀ m ∈ members, m.2.isWhole = true := by
  induction members with
  | nil => simp [areWholeMembers]
  | cons m members ih => simp [areWholeMembers, ih]

/-- What may be missing is written with a value, `null` if it is. -/
theorem isWhole_ofOption (h : ∀ a, (write a).isWhole = true) (a : Option α) :
    (ofOption write a).isWhole = true := by
  cases a with
  | none => rfl
  | some a => exact h a

/-- A list is written with a value if its items are. -/
theorem isWhole_ofList (h : ∀ a, (write a).isWhole = true) (as : List α) :
    (ofList write as).isWhole = true := by
  simp [ofList, isWhole, areWholeItems_iff, h]

end Whole

end Json

open Json

/-! ### Instructions -/

/-- An instance is one of the named ones or a number, and neither is taken for the other. -/
theorem Instance.readsBack (nested : Bool) :
    ReadsBack Instance.toJson (Instance.ofJson? nested) := by
  intro owner
  cases owner with
  | object index => simp [Instance.toJson, Instance.ofJson?, asChoice?]
  | _ => rfl

/-- A variable is read back member by member. -/
theorem VarRef.readsBack (nested : Bool) : ReadsBack VarRef.toJson (VarRef.ofJson? nested) := by
  intro v
  refine bind_of_eq_some (recordOfMembers?_of_nodup (by simp) _) ?_
  refine bind_of_eq_some (Record.required_of_read rfl rfl) ?_
  exact bind_of_eq_some (Record.optional_of_read rfl (Instance.readsBack nested v.owner)) rfl

/-- A function, a record with its name only, is read back. -/
theorem readsBack_function : ReadsBack functionToJson functionOfJson? := fun _ =>
  bind_of_eq_some (recordOfMembers?_of_nodup (by simp) _) (Record.required_of_read rfl rfl)

/-- A literal is read back by its kind. -/
theorem Literal.readsBack : ReadsBack Literal.toJson Literal.ofJson? := by
  intro literal
  cases literal <;> simp [Literal.toJson, Literal.ofJson?, asDouble?, asBool?, asString?]

/-- An instruction is read back member by member. Every member is written, so no default is used. -/
theorem Instruction.readsBack (nested : Bool) :
    ReadsBack Instruction.toJson (Instruction.ofJson? nested) := by
  intro i
  have hextOp := ReadsBack.option (asNamed?_ofNamed nested) rfl i.extOp
  have hcomparison := ReadsBack.option (asNamed?_ofNamed nested) rfl i.comparison
  have htarget := (VarRef.readsBack nested).option rfl i.target
  have hfunction := readsBack_function.option rfl i.function
  have hliteral := Literal.readsBack.option rfl i.literal
  have hrecord : i.toJson.asRecord? Instruction.memberNames = some (member? i.members) :=
    recordOfMembers?_of_nodup (by simp [Instruction.members]) _
  refine bind_of_eq_some hrecord ?_
  refine bind_of_eq_some (Record.optional_of_read rfl (asUInt32?_int i.address)) ?_
  refine bind_of_eq_some (Record.required_of_read rfl (asNamed?_ofNamed nested i.opcode)) ?_
  refine bind_of_eq_some (Record.optional_of_read rfl hextOp) ?_
  refine bind_of_eq_some (Record.optional_of_read rfl hcomparison) ?_
  refine bind_of_eq_some (Record.optional_of_read rfl (asNamed?_ofNamed nested i.type1)) ?_
  refine bind_of_eq_some (Record.optional_of_read rfl (asNamed?_ofNamed nested i.type2)) ?_
  refine bind_of_eq_some (Record.optional_of_read rfl (Instance.readsBack nested i.owner)) ?_
  refine bind_of_eq_some (Record.optional_of_read rfl (asNamed?_ofNamed nested i.reference)) ?_
  refine bind_of_eq_some (Record.optional_of_read rfl htarget) ?_
  refine bind_of_eq_some (Record.optional_of_read rfl hfunction) ?_
  refine bind_of_eq_some (Record.optional_of_read rfl hliteral) ?_
  refine bind_of_eq_some (Record.optional_of_read rfl (asUInt16?_int i.argCount)) ?_
  refine bind_of_eq_some (Record.optional_of_read rfl (asUInt8?_int i.dupSize)) ?_
  exact bind_of_eq_some (Record.optional_of_read rfl (asUInt8?_int i.swapSize)) rfl

/-- An instance is written with a value. -/
theorem Instance.isWhole_toJson (owner : Instance) : owner.toJson.isWhole = true := by
  cases owner <;> rfl

/-- A variable is written with a value. -/
theorem VarRef.isWhole_toJson (v : VarRef) : v.toJson.isWhole = true := by
  simp [VarRef.toJson, isWhole, areWholeMembers, Instance.isWhole_toJson]

/-- A literal is written with a value. -/
theorem Literal.isWhole_toJson (literal : Literal) : literal.toJson.isWhole = true := by
  cases literal <;> rfl

/-- A function is written with a value. -/
theorem isWhole_functionToJson (name : String) : (functionToJson name).isWhole = true :=
  rfl

/-- A word is written with a value. -/
theorem isWhole_ofNamed {α : Type} [Named α] (a : α) : (ofNamed a).isWhole = true :=
  rfl

/-- An instruction is written with a value, since all its members are. -/
theorem Instruction.isWhole_toJson (i : Instruction) : i.toJson.isWhole = true := by
  simp [Instruction.toJson, Instruction.members, isWhole, areWholeMembers, isWhole_ofNamed,
    Instance.isWhole_toJson, isWhole_ofOption isWhole_ofNamed,
    isWhole_ofOption VarRef.isWhole_toJson, isWhole_ofOption isWhole_functionToJson,
    isWhole_ofOption Literal.isWhole_toJson]

/-! ### Structured code -/

/-- A run of instructions is read from a record of its members. -/
theorem CodeBlock.ofContent?_of_members {β : Type} {source : β → Json}
    {content : List String → Option (Record β)} {r : Record β} {b : CodeBlock} {start code : β}
    (hcontent : content CodeBlock.memberNames = some r) (hstart : r "start_address" = some start)
    (hcode : r "instructions" = some code) (hstartJson : source start = .int b.start.toNat)
    (hcodeJson : source code = .ofList Instruction.toJson b.code) :
    CodeBlock.ofContent? source content = some b := by
  have hstartRead : (source start).asUInt32? = some b.start := by rw [hstartJson, asUInt32?_int]
  have hcodeRead : (source code).asList? (Instruction.ofJson? true) = some b.code := by
    rw [hcodeJson]
    exact (Instruction.readsBack true).list b.code
  refine bind_of_eq_some hcontent ?_
  refine bind_of_eq_some (Record.optional_of_read hstart hstartRead) ?_
  exact bind_of_eq_some (Record.required_of_read hcode hcodeRead) rfl

/-- The members of straight code are written with values. -/
theorem CodeBlock.areWholeMembers_members (b : CodeBlock) : areWholeMembers b.members = true := by
  simp [CodeBlock.members, areWholeMembers, isWhole, isWhole_ofList Instruction.isWhole_toJson]

namespace Node

/-- The views of items, one by one. -/
theorem viewItems_eq_map (items : List Json) : viewItems items = items.map view := by
  induction items with
  | nil => rfl
  | cons item items ih => rw [viewItems, ih, List.map_cons]

/-- The views of members, one by one, under the same names. -/
theorem viewMembers_eq_map (members : List (MemberName × Json)) :
    viewMembers members = members.map fun (name, value) => (name, view value) := by
  induction members with
  | nil => rfl
  | cons m members ih => rw [viewMembers, ih, List.map_cons]

/-- A region is written node by node. -/
theorem regionToJson_eq_map (region : List Node) : regionToJson region = region.map toJson := by
  induction region with
  | nil => rfl
  | cons node region ih => rw [regionToJson, ih, List.map_cons]

/-- A view remembers the value that it is a view of. -/
@[simp]
theorem view_source (j : Json) : (view j).source = j := by
  cases j <;> simp [view]

/-- A record with a kind, and no member repeated, is read by its kind. -/
theorem view_node_of_kind {kind : String} {members : List (MemberName × Json)}
    (h : ("kind" :: members.map (·.1.text)).Nodup) :
    (view (.obj (("kind", .str kind) :: members))).node =
      ofTagged? ⟨view (.str kind),
        fun _ => some (member? (viewMembers (("kind", .str kind) :: members)))⟩ := by
  have hviews : (viewMembers members).map (·.1.text) = members.map (·.1.text) := by
    simp [viewMembers_eq_map]
  simp only [view, viewMembers]
  rw [taggedMembers?_of_nodup (by rwa [hviews])]
  rfl

/-- A record of the kind `block` is read as straight code. -/
theorem ofTagged?_block (content : List String → Option (Record View)) :
    ofTagged? ⟨view (.str "block"), content⟩ =
      (CodeBlock.ofContent? View.source content).map .block :=
  rfl

/-- A record of the kind `fragment` is read as a routine, and may have no other members than
these. -/
theorem ofTagged?_fragment (content : List String → Option (Record View)) :
    ofTagged? ⟨view (.str "fragment"), content⟩ =
      (content ["code_entry_name", "function_name", "is_constructor", "argument_count",
        "body"]).bind routineOfContent? := by
  rfl

mutual

/-- The view of a node that was written gives the node. By induction on the node, with one case for
each kind: the views of the regions inside give the regions. -/
theorem view_toJson : ∀ n : Node, (view n.toJson).node = some n
  | .block code => by
    let r := member? (viewMembers (("kind", .str "block") :: code.members))
    have hstart : r "start_address" = some (view (.int code.start.toNat)) := rfl
    have hcode : r "instructions" = some (view (.ofList Instruction.toJson code.code)) := rfl
    rw [toJson, view_node_of_kind (by simp [CodeBlock.members])]
    rw [ofTagged?_block, CodeBlock.ofContent?_of_members rfl hstart hcode rfl rfl]
    rfl
  | .branch thenPart none => by
    rw [toJson, view_node_of_kind (by simp)]
    -- The kind is a closed word, so which content is read computes.
    change branchOfContent? (member? _) = _
    refine bind_of_eq_some (Record.required_of_read rfl (view_regionToJson thenPart)) ?_
    exact bind_of_eq_some (Record.optional_of_read rfl rfl) rfl
  | .branch thenPart (some elsePart) => by
    have helse := congrArg (Option.map some) (view_regionToJson elsePart)
    rw [toJson, view_node_of_kind (by simp)]
    change branchOfContent? (member? _) = _
    refine bind_of_eq_some (Record.required_of_read rfl (view_regionToJson thenPart)) ?_
    exact bind_of_eq_some (Record.optional_of_read rfl helse) rfl
  | .chain logic conditions => by
    rw [toJson, view_node_of_kind (by simp)]
    change chainOfContent? (member? _) = _
    refine bind_of_eq_some (Record.required_of_read rfl (asNamed?_ofNamed true logic)) ?_
    exact bind_of_eq_some (Record.required_of_read rfl (view_regionsToJson conditions)) rfl
  | .loop condition body => by
    rw [toJson, view_node_of_kind (by simp)]
    change loopOfContent? (member? _) = _
    refine bind_of_eq_some (Record.required_of_read rfl (view_regionToJson condition)) ?_
    exact bind_of_eq_some (Record.required_of_read rfl (view_regionToJson body)) rfl
  | .leave => rfl
  | .again => rfl
  | .guarded body none => by
    rw [toJson, view_node_of_kind (by simp)]
    change guardedOfContent? (member? _) = _
    refine bind_of_eq_some (Record.required_of_read rfl (view_regionToJson body)) ?_
    exact bind_of_eq_some (Record.optional_of_read rfl rfl) rfl
  | .guarded body (some cleanup) => by
    have hcleanup := congrArg (Option.map some) (view_regionToJson cleanup)
    rw [toJson, view_node_of_kind (by simp)]
    change guardedOfContent? (member? _) = _
    refine bind_of_eq_some (Record.required_of_read rfl (view_regionToJson body)) ?_
    exact bind_of_eq_some (Record.optional_of_read rfl hcleanup) rfl
  | .statics body => by
    rw [toJson, view_node_of_kind (by simp)]
    exact congrArg (Option.map Node.statics) (view_regionToJson body)
  | .routine header body => by
    have hname : (view (.ofOption .str header.name)).source.asOption? asString? =
        some header.name := by
      rw [view_source]
      exact readsBack_str.option rfl header.name
    rw [toJson, view_node_of_kind (by simp [RoutineHeader.members])]
    rw [ofTagged?_fragment, Option.bind_some]
    refine bind_of_eq_some (Record.required_of_read rfl rfl) ?_
    refine bind_of_eq_some (Record.optional_of_read rfl hname) ?_
    refine bind_of_eq_some (Record.optional_of_read rfl rfl) ?_
    refine bind_of_eq_some (Record.optional_of_read rfl (asUInt16?_int header.argCount)) ?_
    exact bind_of_eq_some (Record.required_of_read rfl (view_regionToJson body)) rfl

/-- A region is read from the nodes it was written as. -/
theorem view_regionToJson : ∀ region : List Node,
    (view (.arr (regionToJson region))).region = some region
  | [] => rfl
  | node :: region => by
    have hnodes := view_regionToJson region
    simp only [view] at hnodes ⊢
    simp [regionToJson, viewItems, List.mapM_cons, view_toJson node, hnodes]

/-- Regions are read from the regions they were written as. -/
theorem view_regionsToJson : ∀ regions : List (List Node),
    (view (.arr (regionsToJson regions))).regions = some regions
  | [] => rfl
  | region :: regions => by
    have hregions := view_regionsToJson regions
    have hregion := view_regionToJson region
    simp only [view] at hregions ⊢
    simp [regionsToJson, viewItems, List.mapM_cons, hregion, hregions]

end

mutual

/-- A node is written with a value. A text that is no value would be skipped by the view. -/
theorem isWhole_toJson : ∀ n : Node, n.toJson.isWhole = true
  | .block code => by
    simp [toJson, isWhole, areWholeMembers, CodeBlock.areWholeMembers_members]
  | .branch thenPart none => by
    simp [toJson, isWhole, areWholeMembers, areWhole_regionToJson thenPart]
  | .branch thenPart (some elsePart) => by
    simp [toJson, isWhole, areWholeMembers, areWhole_regionToJson thenPart,
      areWhole_regionToJson elsePart]
  | .chain logic conditions => by
    simp [toJson, isWhole, areWholeMembers, isWhole_ofNamed, areWhole_regionsToJson conditions]
  | .loop condition body => by
    simp [toJson, isWhole, areWholeMembers, areWhole_regionToJson condition,
      areWhole_regionToJson body]
  | .leave => rfl
  | .again => rfl
  | .guarded body none => by
    simp [toJson, isWhole, areWholeMembers, areWhole_regionToJson body]
  | .guarded body (some cleanup) => by
    simp [toJson, isWhole, areWholeMembers, areWhole_regionToJson body,
      areWhole_regionToJson cleanup]
  | .statics body => by
    simp [toJson, isWhole, areWholeMembers, areWhole_regionToJson body]
  | .routine header body => by
    have hname : (ofOption .str header.name).isWhole = true := isWhole_ofOption (fun _ => rfl) _
    simp [toJson, RoutineHeader.members, isWhole, areWholeMembers, hname,
      areWhole_regionToJson body]

/-- The nodes of a region are written with values. -/
theorem areWhole_regionToJson : ∀ region : List Node,
    areWholeItems (regionToJson region) = true
  | [] => rfl
  | node :: region => by
    simp [regionToJson, areWholeItems, isWhole_toJson node, areWhole_regionToJson region]

/-- The regions of a chain are written with values. -/
theorem areWhole_regionsToJson : ∀ regions : List (List Node),
    areWholeItems (regionsToJson regions) = true
  | [] => rfl
  | region :: regions => by
    simp [regionsToJson, areWholeItems, isWhole, areWhole_regionToJson region,
      areWhole_regionsToJson regions]

end

/-- A node is written with its kind as a word. -/
theorem hasWordTag_toJson (n : Node) : hasWordTag n.toJson = true := by
  cases n with
  | branch _ elsePart => cases elsePart <;> rfl
  | guarded _ cleanup => cases cleanup <;> rfl
  | _ => rfl

/-- A node is read back from its document. -/
theorem readsBack : ReadsBack toJson ofJson? := by
  intro n
  simp [ofJson?, hasWordTag_toJson, isWhole_toJson, view_toJson]

end Node

/-- An entry is read back from its document. -/
theorem Entry.readsBack : ReadsBack Entry.toJson Entry.ofJson? := by
  intro e
  have hbody : asList? Node.ofJson? (.arr (Node.regionToJson e.body)) = some e.body := by
    rw [Node.regionToJson_eq_map]
    exact Node.readsBack.list e.body
  refine bind_of_eq_some (recordOfMembers?_of_nodup (by simp) _) ?_
  refine bind_of_eq_some (Record.required_of_read rfl rfl) ?_
  refine bind_of_eq_some (Record.optional_of_read rfl (asUInt16?_int e.argCount)) ?_
  exact bind_of_eq_some (Record.required_of_read rfl hbody) rfl

/-! ### Knowledge about a game -/

/-- A member of an enum is read back. -/
theorem EnumMember.readsBack : ReadsBack EnumMember.toJson EnumMember.ofJson? := by
  intro m
  refine bind_of_eq_some (recordOfMembers?_of_nodup (by simp) _) ?_
  refine bind_of_eq_some (Record.required_of_read rfl rfl) ?_
  exact bind_of_eq_some (Record.required_of_read rfl (asInt64?_int m.value)) rfl

/-- An enum is read back. -/
theorem EnumDef.readsBack : ReadsBack EnumDef.toJson EnumDef.ofJson? := by
  intro e
  refine bind_of_eq_some (recordOfMembers?_of_nodup (by simp) _) ?_
  refine bind_of_eq_some (Record.required_of_read rfl rfl) ?_
  exact bind_of_eq_some (Record.required_of_read rfl (EnumMember.readsBack.list e.members)) rfl

/-- A way to read an argument is read back by its kind. -/
theorem Reading.readsBack : ReadsBack Reading.toJson Reading.ofJson? := by
  intro reading
  cases reading with
  | keyword => rfl
  | boolean => rfl
  | constants names =>
    have hnames := ReadsBack.table integerKey?_toString readsBack_str names
    simpa [Reading.toJson, Reading.ofJson?, asChoice?] using hnames
  | member enum => rfl

/-- A table of readings is read back, in the order of its names. -/
theorem Readings.readsBack : ReadsBack Readings.toJson Readings.ofJson? := by
  intro r
  have hvariables := ReadsBack.table textKey?_id Reading.readsBack r.byVariable
  have hfunctions := ReadsBack.table textKey?_id
    (Reading.readsBack.option rfl).list r.byFunction
  refine bind_of_eq_some (recordOfMembers?_of_nodup (by simp) _) ?_
  refine bind_of_eq_some (Record.optional_of_read rfl hvariables) ?_
  exact bind_of_eq_some (Record.optional_of_read rfl hfunctions) rfl

/-- A table of argument names is read back. -/
theorem ArgumentNames.readsBack : ReadsBack ArgumentNames.toJson ArgumentNames.ofJson? :=
  ReadsBack.table textKey?_id readsBack_str.list

/-! ### Scripts and programs -/

/-- A successor that is straight code is read as a block. -/
theorem Successor.ofJson?_of_block {members : List (MemberName × Json)}
    {content : List String → Option (Record Json)} (hwhole : (Json.obj members).isWhole = true)
    (htagged : taggedMembers? members = some ⟨.str "block", content⟩) :
    Successor.ofJson? (.obj members) = (CodeBlock.ofContent? id content).map .block := by
  have htag : (if (Json.obj members).isWhole then taggedMembers? members else none) =
      some ⟨.str "block", content⟩ := by
    rw [if_pos hwhole, htagged]
  exact bind_of_eq_some htag rfl

/-- A successor, a block or another fragment, is read back. -/
theorem Successor.readsBack : ReadsBack Successor.toJson Successor.ofJson? := by
  intro successor
  cases successor with
  | block code =>
    let r := member? (("kind", Json.str "block") :: code.members)
    have hstart : r "start_address" = some (.int code.start.toNat) := rfl
    have hcode : r "instructions" = some (.ofList Instruction.toJson code.code) := rfl
    have htagged : taggedMembers? (("kind", .str "block") :: code.members) =
        some ⟨.str "block", fun _ => some r⟩ :=
      taggedMembers?_of_nodup (by simp [CodeBlock.members])
    have hwhole : (Json.obj (("kind", .str "block") :: code.members)).isWhole = true := by
      simp [isWhole, areWholeMembers, CodeBlock.areWholeMembers_members]
    rw [Successor.toJson, Successor.ofJson?_of_block hwhole htagged,
      CodeBlock.ofContent?_of_members rfl hstart hcode rfl rfl]
    rfl
  | other => rfl

/-- A fragment of a script, a record with its successors only, is read back. -/
theorem Script.readsBack_fragment :
    ReadsBack (fun successors => .obj [("successors", .ofList Successor.toJson successors)])
      Script.fragmentOfJson? := fun successors =>
  bind_of_eq_some (recordOfMembers?_of_nodup (by simp) _)
    (Record.optional_of_read rfl (Successor.readsBack.list successors))

/-- A script is read back from its document. -/
theorem Script.readsBack : ReadsBack Script.toJson Script.ofJson? := by
  intro s
  refine bind_of_eq_some (recordOfMembers?_of_nodup (by simp) _) ?_
  refine bind_of_eq_some (Record.required_of_read rfl rfl) ?_
  exact bind_of_eq_some
    (Record.optional_of_read rfl (Script.readsBack_fragment.list s.fragments)) rfl

/-- A program is read back from its document. This puts the records above together. -/
theorem Program.readsBack : ReadsBack Program.toJson Program.ofJson? := by
  intro p
  refine bind_of_eq_some (recordOfMembers?_of_nodup (by simp) _) ?_
  refine bind_of_eq_some (Record.optional_of_read rfl (Entry.readsBack.list p.entries)) ?_
  refine bind_of_eq_some (Record.optional_of_read rfl (EnumDef.readsBack.list p.enums)) ?_
  refine bind_of_eq_some (Record.optional_of_read rfl (Script.readsBack.list p.scripts)) ?_
  refine bind_of_eq_some
    (Record.optional_of_read rfl (ArgumentNames.readsBack p.argumentNames)) ?_
  exact bind_of_eq_some (Record.optional_of_read rfl (Readings.readsBack p.readings)) rfl

end GmlDecompiler

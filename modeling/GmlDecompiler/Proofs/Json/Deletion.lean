import GmlDecompiler.Proofs.Json.Documents

/-!
# Leaving out members that have their default

`Site` says what a document holds at a place, so which members are optional there and what their
defaults are. `Site.Deletes` is the deletion of one member that has its default, anywhere in a
document. This file says what a deletion does to a record and to a list; it assumes nothing of
how the document was written.
-/

namespace GmlDecompiler

open Json

/-- What a document holds at a place. -/
inductive Site where
  /-- A value without optional members in it. -/
  | plain
  /-- A list, with the same at each of its items. -/
  | list (item : Site)
  /-- An instruction. -/
  | instruction
  /-- A variable of an instruction. -/
  | varRef
  /-- A node of structured code. -/
  | node
  /-- An entry. -/
  | entry
  /-- The readings of a game. -/
  | readings
  /-- A script. -/
  | script
  /-- A fragment of a script. -/
  | fragment
  /-- What follows a fragment of a script. -/
  | successor
  /-- A program. -/
  | program

namespace Site

/-- The optional members and their defaults. Those of an instruction are the members of an
instruction without operands; the nodes of all kinds are taken together, because no two of them
use one name differently. -/
def defaults : Site → List (MemberName × Json)
  | .plain | .list _ => []
  | .instruction => (Instruction.plain .exit).members.filter (·.1.text != "kind")
  | .varRef => [("instance_type", .str "Own")]
  | .node =>
    [("start_address", .int 0), ("else_branch", .null), ("finally", .null),
      ("function_name", .null), ("is_constructor", .bool false), ("argument_count", .int 0)]
  | .entry => [("argument_count", .int 0)]
  | .readings => [("variables", .obj []), ("function_arguments", .obj [])]
  | .script => [("fragments", .arr [])]
  | .fragment => [("successors", .arr [])]
  | .successor => [("start_address", .int 0)]
  | .program =>
    [("code_entries", .arr []), ("enums", .arr []), ("global_scripts", .arr []),
      ("argument_names", .obj []),
      ("macro_types", .obj [("variables", .obj []), ("function_arguments", .obj [])])]

/-- The default of a member, if it is optional. -/
def default? (p : Site) (name : String) : Option Json :=
  member? p.defaults name

/-- The members in which there may be optional members again. -/
def parts : Site → List (String × Site)
  | .instruction => [("variable", .varRef)]
  | .node =>
    [("instructions", .list .instruction), ("then_branch", .list .node),
      ("else_branch", .list .node), ("conditions", .list (.list .node)),
      ("condition", .list .node), ("body", .list .node), ("finally", .list .node)]
  | .entry => [("body", .list .node)]
  | .script => [("fragments", .list .fragment)]
  | .fragment => [("successors", .list .successor)]
  | .successor => [("instructions", .list .instruction)]
  | .program =>
    [("code_entries", .list .entry), ("global_scripts", .list .script),
      ("macro_types", .readings)]
  | .plain | .list _ | .varRef | .readings => []

/-- What a member holds. -/
def part (p : Site) (name : String) : Site :=
  (p.parts.lookup name).getD .plain

/-- One optional member that has its default is left out, here or anywhere below. -/
inductive Deletes : Site → Json → Json → Prop
  /-- A member of the object itself. -/
  | drop {p : Site} {name : MemberName} {value : Json} {before after : List (MemberName × Json)}
      (h : p.default? name.text = some value) :
      Deletes p (.obj (before ++ (name, value) :: after)) (.obj (before ++ after))
  /-- A member somewhere in a member of the object. -/
  | member {p : Site} {name : MemberName} {value value' : Json}
      {before after : List (MemberName × Json)} (h : Deletes (p.part name.text) value value') :
      Deletes p (.obj (before ++ (name, value) :: after))
        (.obj (before ++ (name, value') :: after))
  /-- A member somewhere in an item of the list. -/
  | item {p : Site} {value value' : Json} {before after : List Json} (h : Deletes p value value') :
      Deletes (.list p) (.arr (before ++ value :: after)) (.arr (before ++ value' :: after))

/-- Nothing can be left out of a plain value. -/
theorem not_deletes_plain {j j' : Json} : ¬ Site.plain.Deletes j j' := by
  intro h
  generalize hp : Site.plain = p at h
  induction h with
  | drop h => subst hp; cases h
  | member h ih => subst hp; exact ih rfl
  | item h ih => cases hp

/-- A deletion needs something to delete from, and leaves it. -/
theorem Deletes.ne_null {p : Site} {j j' : Json} (h : p.Deletes j j') :
    j ≠ .null ∧ j' ≠ .null := by
  cases h <;> exact ⟨Json.noConfusion, Json.noConfusion⟩

/-- What is left after a deletion has a value in all its parts if the document had. -/
theorem Deletes.isWhole {p : Site} {j j' : Json} (h : p.Deletes j j') (hwhole : j.isWhole = true) :
    j'.isWhole = true := by
  induction h with
  | drop =>
    simp only [Json.isWhole, areWholeMembers_iff, List.mem_append, List.mem_cons] at hwhole ⊢
    exact fun m hm => hwhole m (hm.imp_right .inr)
  | member _ ih =>
    simp only [Json.isWhole, areWholeMembers_iff, List.forall_mem_append,
      List.forall_mem_cons] at hwhole ⊢
    exact ⟨hwhole.1, ih hwhole.2.1, hwhole.2.2⟩
  | item _ ih =>
    simp only [Json.isWhole, areWholeItems_iff, List.forall_mem_append,
      List.forall_mem_cons] at hwhole ⊢
    exact ⟨hwhole.1, ih hwhole.2.1, hwhole.2.2⟩

end Site

/-! ### Results that persist -/

namespace Json

/-- A result that was found is found again. -/
def Persists {α : Type} (x x' : Option α) : Prop :=
  ∀ a, x = some a → x' = some a

namespace Persists

variable {α β : Type}

/-- What is read stays when nothing is deleted. -/
theorem refl (x : Option α) : Persists x x := fun _ h => h

/-- Reading in two steps persists if each of them does. -/
theorem bind {x x' : Option α} {f f' : α → Option β} (hx : Persists x x')
    (hf : ∀ a, Persists (f a) (f' a)) : Persists (x >>= f) (x' >>= f') := by
  intro b hb
  obtain ⟨a, ha, hb⟩ := Option.bind_eq_some_iff.mp hb
  exact bind_of_eq_some (hx a ha) (hf a b hb)

/-- What is made of the value that is read persists if the value does. -/
theorem map {x x' : Option α} (hx : Persists x x') (f : α → β) : Persists (x.map f) (x'.map f) := by
  intro b hb
  obtain ⟨a, ha, rfl⟩ := Option.map_eq_some_iff.mp hb
  rw [hx a ha, Option.map_some]

/-- A choice persists if both branches do. The condition must not depend on the deletion. -/
theorem ite {c : Prop} [Decidable c] {x x' y y' : Option α} (hx : Persists x x')
    (hy : Persists y y') : Persists (if c then x else y) (if c then x' else y') := by
  split
  · exact hx
  · exact hy

/-- One item of a list is read as before. -/
theorem mapM {read : β → Option α} {item item' : β} (h : Persists (read item) (read item'))
    (before after : List β) :
    Persists ((before ++ item :: after).mapM read) ((before ++ item' :: after).mapM read) := by
  simp only [List.mapM_append, List.mapM_cons]
  exact bind (refl _) fun _ => bind (bind h fun _ => refl _) fun _ => refl _

end Persists

end Json

/-! ### Records after a deletion -/

/-- A member before and after a deletion: it has its value still, or there was a deletion in its
value, or it had its default and is gone. -/
inductive MemberKept (related : Json → Json → Prop) (default : Option Json) :
    Option Json → Option Json → Prop
  | same (value : Option Json) : MemberKept related default value value
  | inner {value value' : Json} (h : related value value') :
    MemberKept related default (some value) (some value')
  | gone {value : Json} (h : default = some value) : MemberKept related default (some value) none

/-- An object before and after a deletion at a place, the deletions in its members being known
as `related`. -/
inductive ObjectKept (p : Site) (related : Site → Json → Json → Prop) :
    List (MemberName × Json) → List (MemberName × Json) → Prop
  | drop {name : MemberName} {value : Json} {before after : List (MemberName × Json)}
    (h : p.default? name.text = some value) :
    ObjectKept p related (before ++ (name, value) :: after) (before ++ after)
  | member {name : MemberName} {value value' : Json} {before after : List (MemberName × Json)}
    (h : related (p.part name.text) value value') :
    ObjectKept p related (before ++ (name, value) :: after) (before ++ (name, value') :: after)

section Members

variable {p : Site} {related : Site → Json → Json → Prop}

/-- A required member cannot be deleted, so reading it persists if reading its value does. -/
theorem MemberKept.required {α : Type} {rel : Json → Json → Prop} {r r' : Record Json}
    {name : String} {read : Json → Option α} (h : MemberKept rel none (r name) (r' name))
    (hread : ∀ v v', rel v v' → Persists (read v) (read v')) :
    Persists (Record.required r name read) (Record.required r' name read) := by
  unfold Record.required
  generalize r name = value at h ⊢
  generalize r' name = value' at h ⊢
  cases h with
  | same => exact .refl _
  | inner h => exact hread _ _ h
  | gone h => cases h

/-- An optional member that was deleted is read as its default, which it had. -/
theorem MemberKept.optional {α : Type} {rel : Json → Json → Prop} {r r' : Record Json}
    {name : String} {read : Json → Option α} {value : Json} {default : α}
    (h : MemberKept rel (some value) (r name) (r' name)) (hdefault : read value = some default)
    (hread : ∀ v v', rel v v' → Persists (read v) (read v')) :
    Persists (Record.optional r name default read) (Record.optional r' name default read) := by
  unfold Record.optional
  generalize r name = value at h ⊢
  generalize r' name = value' at h ⊢
  cases h with
  | same => exact .refl _
  | inner h => exact hread _ _ h
  | gone h =>
    cases h
    exact fun a ha => hdefault.symm.trans ha

/-- The members of a record before and after a deletion at a place. -/
def RecordKept (p : Site) (related : Site → Json → Json → Prop) (names : List String)
    (r r' : Record Json) : Prop :=
  ∀ name ∈ names, MemberKept (related (p.part name)) (p.default? name) (r name) (r' name)

/-- A tagged record before and after a deletion at a place. -/
structure TaggedKept (p : Site) (related : Site → Json → Json → Prop) (t t' : Tagged Json) :
    Prop where
  /-- The tag is the same. -/
  tag : t'.tag = t.tag
  /-- Its members are those before and after the deletion. -/
  content {names : List String} {r : Record Json} (h : t.content names = some r) :
    ∃ r', t'.content names = some r' ∧ RecordKept p related names r r'

/-- What is read from the content of a tagged record is read again. -/
theorem TaggedKept.bind {α : Type} {t t' : Tagged Json} (h : TaggedKept p related t t')
    {names : List String} {f : Record Json → Option α}
    (hf : ∀ r r', RecordKept p related names r r' → Persists (f r) (f r')) :
    Persists (t.content names >>= f) (t'.content names >>= f) := by
  intro a ha
  obtain ⟨r, hr, ha⟩ := Option.bind_eq_some_iff.mp ha
  obtain ⟨r', hr', hkept⟩ := h.content hr
  exact bind_of_eq_some hr' (hf r r' hkept a ha)

section Lookup

variable {β : Type} {key : MemberName} {value : β} {before after : List (MemberName × β)}
  {name : String}

/-- How often a name occurs, with and without one member. -/
theorem countMembers_append_cons :
    countMembers (before ++ (key, value) :: after) name =
      countMembers (before ++ after) name + if key.text = name then 1 else 0 := by
  simp only [countMembers, List.countP_append, List.countP_cons, beq_iff_eq]
  omega

/-- Members of other names are found as if the member were not there. -/
theorem member?_append_cons_of_ne (h : key.text ≠ name) :
    member? (before ++ (key, value) :: after) name = member? (before ++ after) name := by
  simp [member?, List.find?_append, h]

/-- A name that does not occur names no member. -/
theorem member?_eq_none_of_count {members : List (MemberName × β)}
    (h : countMembers members name = 0) : member? members name = none := by
  rw [member?, Option.map_eq_none_iff, List.find?_eq_none]
  exact List.countP_eq_zero.mp h

/-- A member whose name occurs once is found by it. -/
theorem member?_append_cons_self (h : countMembers (before ++ (key, value) :: after) key.text ≤ 1) :
    member? (before ++ (key, value) :: after) key.text = some value ∧
      member? (before ++ after) key.text = none := by
  have hrest : countMembers (before ++ after) key.text = 0 := by
    rw [countMembers_append_cons, if_pos rfl] at h
    omega
  have hbefore : countMembers before key.text = 0 := by
    rw [countMembers, List.countP_append] at hrest
    exact (Nat.add_eq_zero_iff.mp hrest).1
  refine ⟨?_, member?_eq_none_of_count hrest⟩
  have hnone := member?_eq_none_of_count hbefore
  rw [member?, Option.map_eq_none_iff] at hnone
  rw [member?, List.find?_append, hnone]
  simp

end Lookup

variable {members members' : List (MemberName × Json)} (h : ObjectKept p related members members')

include h

/-- A deletion does not make a name occur more often, so no member is repeated that was not
before. -/
theorem ObjectKept.countMembers_le (name : String) :
    countMembers members' name ≤ countMembers members name := by
  cases h with
  | drop h =>
    rw [countMembers_append_cons]
    omega
  | member h => simp only [countMembers_append_cons, Nat.le_refl]

/-- A member that does not change is still there. -/
theorem ObjectKept.unchanged (name : String) (hdefault : p.default? name = none)
    (hrelated : ∀ v v', ¬ related (p.part name) v v') :
    Json.member? members' name = Json.member? members name ∧
      countMembers members' name = countMembers members name := by
  cases h with
  | @drop key value before after h =>
    have hkey : key.text ≠ name := by
      rintro rfl
      rw [hdefault] at h
      cases h
    rw [member?_append_cons_of_ne hkey, countMembers_append_cons, if_neg hkey]
    exact ⟨rfl, rfl⟩
  | @member key value value' before after h =>
    have hkey : key.text ≠ name := by
      rintro rfl
      exact hrelated _ _ h
    rw [member?_append_cons_of_ne hkey, member?_append_cons_of_ne hkey, countMembers_append_cons,
      countMembers_append_cons]
    exact ⟨rfl, rfl⟩

/-- What a deletion does to an object it does to each of its members, as long as the name is not
repeated. -/
theorem ObjectKept.member? {name : String} (hcount : countMembers members name ≤ 1) :
    MemberKept (related (p.part name)) (p.default? name) (Json.member? members name)
      (Json.member? members' name) := by
  cases h with
  | @drop key value before after h =>
    by_cases hkey : key.text = name
    · subst hkey
      obtain ⟨hvalue, hnone⟩ := member?_append_cons_self hcount
      rw [hvalue, hnone]
      exact .gone h
    · rw [member?_append_cons_of_ne hkey]
      exact .same _
  | @member key value value' before after h =>
    by_cases hkey : key.text = name
    · subst hkey
      have hcount' : countMembers (before ++ (key, value') :: after) key.text ≤ 1 := by
        rw [countMembers_append_cons] at hcount ⊢
        exact hcount
      rw [(member?_append_cons_self hcount).1, (member?_append_cons_self hcount').1]
      exact .inner h
    · rw [member?_append_cons_of_ne hkey, member?_append_cons_of_ne hkey]
      exact .same _

/-- An object that is a record is one after a deletion. -/
theorem ObjectKept.record {names : List String} {r : Record Json}
    (hr : recordOfMembers? names members = some r) :
    ∃ r', recordOfMembers? names members' = some r' ∧ RecordKept p related names r r' := by
  unfold recordOfMembers? at hr
  split at hr
  · rename_i hcounts
    cases hr
    simp only [List.all_eq_true, decide_eq_true_eq] at hcounts
    refine ⟨Json.member? members', if_pos ?_, fun name hname => h.member? (hcounts name hname)⟩
    simp only [List.all_eq_true, decide_eq_true_eq]
    exact fun name hname => Nat.le_trans (h.countMembers_le name) (hcounts name hname)
  · cases hr

/-- An object that is a tagged record is one after a deletion that leaves the tag alone. -/
theorem ObjectKept.tagged (hdefault : p.default? "kind" = none)
    (hrelated : ∀ v v', ¬ related (p.part "kind") v v') {t : Tagged Json}
    (ht : taggedMembers? members = some t) :
    ∃ t', taggedMembers? members' = some t' ∧ TaggedKept p related t t' := by
  obtain ⟨hmember, hcount⟩ := h.unchanged "kind" hdefault hrelated
  unfold taggedMembers? at ht
  split at ht
  · rename_i hone
    obtain ⟨tag, htag, rfl⟩ := Option.map_eq_some_iff.mp ht
    refine ⟨⟨tag, (recordOfMembers? · members')⟩, ?_, rfl, h.record⟩
    rw [taggedMembers?, if_pos (hcount.trans hone), hmember, htag]
    rfl
  · cases ht

end Members

namespace Site

/-- The defaults of an instruction are what an instruction without operands has, whatever it
does. -/
theorem default?_instruction (opcode : Opcode) {name : String} (hname : name ≠ "kind") :
    Site.instruction.default? name = member? (Instruction.plain opcode).members name := by
  have hfilter : member? ((Instruction.plain .exit).members.filter (·.1.text != "kind")) name =
      member? (Instruction.plain .exit).members name := by
    rw [member?, List.find?_filter, member?]
    congr 2
    funext m
    by_cases hm : m.1.text = name <;> simp [hm, hname]
  let before := (Instruction.plain .exit).members.take 1
  let after := (Instruction.plain .exit).members.drop 2
  have hkind (opcode : Opcode) : member? (Instruction.plain opcode).members name =
      member? (before ++ after) name :=
    @member?_append_cons_of_ne Json "kind" (.ofNamed opcode) before after name hname.symm
  rw [default?, defaults, hfilter, hkind, hkind]

/-- A deletion from an object, at the object itself or in one of its members. -/
theorem Deletes.object {p : Site} {members : List (MemberName × Json)} {j' : Json}
    (h : p.Deletes (.obj members) j') :
    ∃ members', j' = .obj members' ∧ ObjectKept p Deletes members members' := by
  cases h with
  | drop h => exact ⟨_, rfl, .drop h⟩
  | member h => exact ⟨_, rfl, .member h⟩

/-- A reader that a deletion does not change: what it read from the document, it still reads. -/
def Stable {α : Type} (p : Site) (read : Json → Option α) : Prop :=
  ∀ j j', p.Deletes j j' → Persists (read j) (read j')

namespace Stable

variable {α : Type} {p : Site} {read : Json → Option α}

/-- Nothing can be deleted from a plain value, so every reader is stable there. -/
theorem plain : Stable .plain read := fun _ _ h => absurd h not_deletes_plain

/-- A value that may be `null` is read stably if the value is. -/
theorem option (h : Stable p read) : Stable p (asOption? read) := by
  intro j j' hj
  obtain ⟨hne, hne'⟩ := hj.ne_null
  have hoption {j : Json} (hne : j ≠ .null) : asOption? read j = (read j).map some := by
    unfold asOption?
    split
    · exact absurd rfl hne
    · rfl
  rw [hoption hne, hoption hne']
  exact (h j j' hj).map some

/-- A list is read stably if its items are. -/
theorem list (h : Stable p read) : Stable (.list p) (asList? read) := by
  intro j j' hj
  cases hj with
  | drop hdefault => cases hdefault
  | member hmember => exact absurd hmember not_deletes_plain
  | item hitem => exact .mapM (h _ _ hitem) _ _

/-- A record read member by member. -/
theorem record {names : List String} {f : Record Json → Option α}
    (hlist : ∀ q, p ≠ .list q)
    (hf : ∀ r r', RecordKept p Deletes names r r' → Persists (f r) (f r')) :
    Stable p fun j => j.asRecord? names >>= f := by
  intro j j' hj a ha
  obtain ⟨r, hr, hra⟩ := Option.bind_eq_some_iff.mp ha
  cases j with
  | obj members =>
    obtain ⟨members', rfl, hkept⟩ := hj.object
    obtain ⟨r', hr', hmembers⟩ := hkept.record hr
    exact bind_of_eq_some hr' (hf r r' hmembers a hra)
  | arr items =>
    cases hj with
    | item => exact absurd rfl (hlist _)
  | _ => cases hr

end Stable

end Site

end GmlDecompiler

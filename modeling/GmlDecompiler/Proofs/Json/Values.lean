import GmlDecompiler.Program

/-!
# Reading back words, integers, lists and tables

The building blocks of the file formats, each written and read again. What is proved here of a
writer and a reader carries over to the records built from them.
-/

namespace GmlDecompiler

/-- A finite type whose words tell its values apart. -/
class LawfulNamed (α : Type) [Named α] : Prop where
  /-- The word of a value names it. -/
  ofName?_name (a : α) : Named.ofName? (Named.name a) = some a

instance : LawfulNamed Opcode where
  ofName?_name a := by cases a <;> rfl

instance : LawfulNamed ExtOp where
  ofName?_name a := by cases a <;> rfl

instance : LawfulNamed SlotType where
  ofName?_name a := by cases a <;> rfl

instance : LawfulNamed Comparison where
  ofName?_name a := by cases a <;> rfl

instance : LawfulNamed Reference where
  ofName?_name a := by cases a <;> rfl

instance : LawfulNamed Logic where
  ofName?_name a := by cases a <;> rfl

namespace Json

/-- The reader finds every value in what the writer makes of it. -/
def ReadsBack {α : Type} (write : α → Json) (read : Json → Option α) : Prop :=
  ∀ a, read (write a) = some a

/-! ### Words and integers -/

/-- A string is read back. -/
theorem readsBack_str : ReadsBack .str asString? := fun _ => rfl

/-- A key that is a text is itself. -/
theorem textKey?_id (key : String) : textKey? (id key : String) = some key :=
  rfl

/-- A word is read back as what it names. -/
@[simp]
theorem asNamed?_ofNamed {α : Type} [Named α] [LawfulNamed α] (nested : Bool) (a : α) :
    asNamed? nested (ofNamed a) = some a :=
  LawfulNamed.ofName?_name a

/-- An integer within bounds is read as itself. -/
theorem asIntIn?_int {low high value : Int} (hlow : low ≤ value) (hhigh : value < high) :
    (int value).asIntIn? low high = some value := by
  simp [asIntIn?, hlow, hhigh]

/-- A number of 8 bits is within its bounds. -/
@[simp]
theorem asUInt8?_int (word : UInt8) : (int word.toNat).asUInt8? = some word := by
  have hword := word.toNat_lt
  rw [asUInt8?, asIntIn?_int (by omega) (by omega)]
  simp

/-- A number of 16 bits is within its bounds. -/
@[simp]
theorem asUInt16?_int (word : UInt16) : (int word.toNat).asUInt16? = some word := by
  have hword := word.toNat_lt
  rw [asUInt16?, asIntIn?_int (by omega) (by omega)]
  simp

/-- A number of 32 bits is within its bounds. -/
@[simp]
theorem asUInt32?_int (word : UInt32) : (int word.toNat).asUInt32? = some word := by
  have hword := word.toNat_lt
  rw [asUInt32?, asIntIn?_int (by omega) (by omega)]
  simp

/-- A signed number of 16 bits is within its bounds. -/
@[simp]
theorem asInt16?_int (word : Int16) : (int word.toInt).asInt16? = some word := by
  have hlow := word.le_toInt
  have hhigh := word.toInt_lt
  rw [asInt16?, asIntIn?_int (by omega) (by omega)]
  simp

/-- A signed number of 32 bits is within its bounds. -/
@[simp]
theorem asInt32?_int (word : Int32) : (int word.toInt).asInt32? = some word := by
  have hlow := word.le_toInt
  have hhigh := word.toInt_lt
  rw [asInt32?, asIntIn?_int (by omega) (by omega)]
  simp

/-- A signed number of 64 bits is within its bounds. -/
@[simp]
theorem asInt64?_int (word : Int64) : (int word.toInt).asInt64? = some word := by
  have hlow := word.le_toInt
  have hhigh := word.toInt_lt
  rw [asInt64?, asIntIn?_int (by omega) (by omega)]
  simp

/-- The digits of a number read as that number. -/
theorem digitsValue_toDigits (n : Nat) : Double.digitsValue (Nat.toDigits 10 n) = n := by
  rw [Double.digitsValue, ← Nat.ofDigitChars_eq_foldl, Nat.ofDigitChars_ten_toDigits]

/-! ### Options and lists -/

/-- A value that may be absent reads back where the reader refuses `null`. -/
theorem ReadsBack.option {α : Type} {write : α → Json} {read : Json → Option α}
    (h : ReadsBack write read) (hnull : read .null = none) :
    ReadsBack (ofOption write) (asOption? read) := by
  intro a
  cases a with
  | none => rfl
  | some a =>
    have hread : read (write a) = some a := h a
    simp only [ofOption]
    unfold asOption?
    split
    · rename_i hwrite
      simp [hwrite, hnull] at hread
    · simp [hread]

/-- Items written one by one read back one by one. -/
theorem mapM_map_of_readsBack {α β : Type} {write : α → β} {read : β → Option α}
    (h : ∀ a, read (write a) = some a) (as : List α) : (as.map write).mapM read = some as := by
  induction as with
  | nil => rfl
  | cons a as ih => simp [List.mapM_cons, h, ih]

/-- A list is read back if its items are. -/
theorem ReadsBack.list {α : Type} {write : α → Json} {read : Json → Option α}
    (h : ReadsBack write read) : ReadsBack (ofList write) (asList? read) :=
  mapM_map_of_readsBack h

/-! ### Tables -/

/-- A number other than zero is written without a leading zero. -/
theorem head?_toDigits_ne_zero {n : Nat} (hn : 0 < n) :
    (Nat.toDigits 10 n).head? ≠ some '0' := by
  induction n using Nat.strongRecOn with
  | ind n ih =>
    rcases Nat.lt_or_ge n 10 with hsmall | hlarge
    · rw [Nat.toDigits_of_lt_base hsmall, List.head?_cons]
      intro hzero
      have hvalue := Nat.toNat_digitChar_sub_48_of_lt_ten hsmall
      rw [Option.some.inj hzero] at hvalue
      exact absurd hvalue (by simp; omega)
    · have hquotient : 0 < n / 10 := by omega
      have hhead := ih (n / 10) (by omega) hquotient
      rw [Nat.toDigits_of_base_le (by omega) hlarge, List.head?_append]
      have hne : Nat.toDigits 10 (n / 10) ≠ [] := Nat.toDigits_ne_nil
      obtain ⟨c, cs, hcs⟩ := List.exists_cons_of_ne_nil hne
      rw [hcs] at hhead ⊢
      exact hhead

/-- The digits of a number are a plain sequence: not empty, and without a leading zero unless
the number is a zero that may be written so. -/
theorem plainDigits_toDigits (negative : Bool) {n : Nat} (hn : 0 < n ∨ negative = false) :
    (match Nat.toDigits 10 n with
      | [] => false
      | '0' :: rest => rest.isEmpty && !negative
      | _ => true) = true := by
  split
  · rename_i hnil
    exact absurd hnil Nat.toDigits_ne_nil
  · rename_i digits hdigits
    rcases Nat.eq_zero_or_pos n with rfl | hpos
    · rw [Nat.toDigits_zero] at hdigits
      cases hdigits
      simpa using hn
    · exact absurd (by rw [hdigits]; rfl) (head?_toDigits_ne_zero hpos)
  · rfl

/-- A sign and the digits of a number read as a key. -/
theorem integerKey?_of_digits {text : String} (negative : Bool) {n : Nat}
    (htext : text.toList = (if negative then ['-'] else []) ++ Nat.toDigits 10 n)
    (hn : 0 < n ∨ negative = false) {key : Int64}
    (hkey : key.toInt = if negative then -(n : Int) else n) :
    integerKey? text = some key := by
  have hdigits : (Nat.toDigits 10 n).all Char.isDigit = true :=
    List.all_eq_true.mpr fun c hc => Nat.isDigit_of_mem_toDigits (by omega) (by omega) hc
  unfold integerKey?
  split
  rename_i sign digits hsplit
  obtain ⟨rfl, rfl⟩ : sign = negative ∧ digits = Nat.toDigits 10 n := by
    split at hsplit <;> cases hsplit <;> rename_i hsign
    · cases negative with
      | true => simpa [htext] using hsign.symm
      | false =>
        have hchars : Nat.toDigits 10 n = '-' :: digits := htext.symm.trans hsign
        rw [hchars, List.all_cons, Bool.and_eq_true] at hdigits
        exact absurd hdigits.1 (by decide)
    · cases negative with
      | true => exact absurd htext (hsign _)
      | false => exact ⟨rfl, htext⟩
  have hlow : -9223372036854775808 ≤ key.toInt := key.le_toInt
  have hhigh : key.toInt < 9223372036854775808 := key.toInt_lt
  simp only [digitsValue_toDigits, ← hkey]
  rw [if_pos, Int64.ofInt_toInt]
  simp only [Bool.true_and, Bool.and_eq_true, decide_eq_true_eq]
  exact ⟨⟨⟨plainDigits_toDigits sign hn, hdigits⟩, hlow⟩, hhigh⟩

/-- An integer reads back as a key from its decimal text. -/
theorem integerKey?_toString (key : Int64) :
    integerKey? (toString key.toInt : String) = some key := by
  cases hvalue : key.toInt with
  | ofNat n =>
    have htext : (toString (Int.ofNat n)).toList = Nat.toDigits 10 n := Nat.toList_repr
    exact integerKey?_of_digits false htext (.inr rfl) hvalue
  | negSucc n =>
    have htext : (toString (Int.negSucc n)).toList = '-' :: Nat.toDigits 10 (n + 1) := by
      have hminus : toString (Int.negSucc n) = "-" ++ (n + 1).repr := rfl
      rw [hminus, String.toList_append, Nat.toList_repr]
      rfl
    exact integerKey?_of_digits true htext (.inl n.succ_pos) hvalue

/-- The entries of a table, put into an empty one, make the table again. -/
theorem foldl_insert_toList {κ α : Type} [Ord κ] [Std.TransOrd κ] [BEq κ] [LawfulBEq κ]
    [Std.LawfulEqOrd κ] (table : Table κ α) :
    table.toList.foldl (fun t (k, a) => t.insert k a) ∅ = table := by
  have hfold (entries : List (κ × α)) (t : Table κ α) :
      entries.foldl (fun t (k, a) => t.insert k a) t = t.insertMany entries := by
    induction entries generalizing t with
    | nil => simp
    | cons entry entries ih => rw [List.foldl_cons, ih, Std.ExtTreeMap.insertMany_cons]
  rw [hfold]
  refine Std.ExtTreeMap.ext_getElem? fun k => ?_
  by_cases hk : k ∈ table
  · rw [Std.ExtTreeMap.mem_iff_isSome_getElem?] at hk
    obtain ⟨a, ha⟩ := Option.isSome_iff_exists.mp hk
    rw [ha]
    exact Std.ExtTreeMap.getElem?_insertMany_list_of_mem Std.ReflCmp.compare_self
      Std.ExtTreeMap.distinct_keys_toList
      (Std.ExtTreeMap.mem_toList_iff_getElem?_eq_some.mpr ha)
  · rw [Std.ExtTreeMap.getElem?_eq_none hk,
      Std.ExtTreeMap.getElem?_insertMany_list_of_contains_eq_false]
    · exact Std.ExtTreeMap.getElem?_empty
    · rw [Std.ExtTreeMap.map_fst_toList_eq_keys, Std.ExtTreeMap.contains_keys]
      exact Bool.eq_false_iff.mpr hk

/-- A table reads back when its keys and its values do. -/
theorem ReadsBack.table {κ α : Type} [Ord κ] [Std.TransOrd κ] [BEq κ] [LawfulBEq κ]
    [Std.LawfulEqOrd κ] {writeKey : κ → String} {readKey : MemberName → Option κ}
    {write : α → Json} {read : Json → Option α}
    (hkey : ∀ k, readKey (writeKey k : String) = some k) (h : ReadsBack write read) :
    ReadsBack (ofTable writeKey write) (asTable? readKey read) := by
  intro table
  have hentries : (table.toList.map fun e => ((writeKey e.1 : MemberName), write e.2)).mapM
      (fun m => do return (← readKey m.1, ← read m.2)) = some table.toList :=
    mapM_map_of_readsBack (fun e => by simp [hkey, h e.2]) table.toList
  simp only [ofTable, asTable?, hentries]
  exact congrArg some (foldl_insert_toList table)

end Json

end GmlDecompiler

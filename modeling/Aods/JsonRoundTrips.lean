-- What the printer writes: a text of the grammar that says the document, in buffers that are long
-- enough. So the parser gives every document back, however it was printed.
import Aods.CJsonPrint
import Aods.JsonTexts

open machine scanf json_strings
open util.json (text CJson)

namespace util.cjson

/-! ## Integers in double arithmetic -/

theorem digitChar_byte : ∀ d < 10, UInt8.ofNat (Nat.digitChar d).toNat = UInt8.ofNat (48 + d) := by
  decide

theorem decimal_of_lt {n : Nat} (h : n < 10) : decimal n = [UInt8.ofNat (48 + n)] := by
  rw [decimal, Nat.toDigits_of_lt_base h, List.map_singleton, digitChar_byte n h]

theorem decimal_of_le {n : Nat} (h : 10 ≤ n) :
    decimal n = decimal (n / 10) ++ [UInt8.ofNat (48 + n % 10)] := by
  rw [decimal, Nat.toDigits_of_base_le (by decide) h, List.map_append, List.map_singleton,
    digitChar_byte _ (Nat.mod_lt n (by decide))]
  rfl

theorem isWhole_decimal (n : Nat) : IsWhole (decimal n) := by
  induction n using Nat.strongRecOn with
  | ind n ih =>
    by_cases h : n < 10
    · rw [decimal_of_lt h]
      by_cases hzero : n = 0
      · subst hzero
        exact Or.inl rfl
      · have hbyte : (UInt8.ofNat (48 + n)).toNat = 48 + n := by
          rw [UInt8.toNat_ofNat']
          omega
        exact Or.inr ⟨_, [], rfl, by omega, by omega, by simp⟩
    · have hdigit : isDigit (UInt8.ofNat (48 + n % 10)) = true := by
        rw [isDigit_iff, UInt8.toNat_ofNat']
        omega
      rw [decimal_of_le (by omega)]
      rcases ih (n / 10) (by omega) with h48 | ⟨d, t, hd, hlow, hhigh, ht⟩
      · have hzero : number (decimal (n / 10)) = 0 := by rw [h48]; rfl
        rw [number_decimal] at hzero
        omega
      · refine Or.inr ⟨d, t ++ [_], by rw [hd, List.cons_append], hlow, hhigh, ?_⟩
        intro b hb
        rcases List.mem_append.mp hb with hb | hb
        · exact ht b hb
        · rw [List.mem_singleton.mp hb]
          exact hdigit

section

variable {D : Type} {fp : Doubles D}

/-- The number that "%d" writes. -/
def intNumber (n : Int) : Number where
  negative := decide (n < 0)
  whole := decimal n.natAbs
  frac := []
  exp := none
  hwhole := isWhole_decimal n.natAbs
  hfrac := by simp

theorem intNumber_bytes (n : Int) : (intNumber n).bytes = printedInt n := by
  simp [intNumber, Number.bytes, printedInt]

theorem intNumber_scaled {n : Int} (h : n.natAbs < 9007199254740992) :
    (intNumber n).value fp = fp.scaled (decide (n < 0)) (fp.ofInt n.natAbs) 0 := by
  have hdigits : (intNumber n).digits = n.natAbs := by
    simp only [Number.digits, intNumber, List.append_nil, number_decimal]
  rw [Number.value, Number.mantissa, hdigits, if_pos h]
  rfl

theorem intNumber_value (h : fp.Exact) {n : Int} (hn : IsInt n) :
    (intNumber n).value fp = fp.ofInt n := by
  obtain ⟨hlow, hhigh⟩ := hn
  rw [intNumber_scaled (by omega)]
  by_cases hneg : n < 0
  · have habs : -(n.natAbs : Int) = n := by omega
    rw [decide_eq_true hneg]
    exact (h.negated n.natAbs (by omega) (by omega)).trans (congrArg fp.ofInt habs)
  · have habs : (n.natAbs : Int) = n := by omega
    rw [decide_eq_false hneg]
    exact (h.scaled n.natAbs (by omega)).trans (congrArg fp.ofInt habs)

end

/-! ## Strings -/

theorem hexDigit_hexChar : ∀ d < 16, HexDigit d (hexChar d) := by
  unfold HexDigit
  decide

theorem hex4_unit (b : UInt8) :
    Hex4 b.toNat [48, 48, hexChar (b.toNat / 16), hexChar (b.toNat % 16)] := by
  have hlt := b.toNat_lt
  refine ⟨0, 0, b.toNat / 16, b.toNat % 16, _, _, _, _, rfl, by omega, ?_, ?_, ?_, ?_⟩
  · exact Or.inl ⟨by decide, rfl⟩
  · exact Or.inl ⟨by decide, rfl⟩
  · exact hexDigit_hexChar _ (by omega)
  · exact hexDigit_hexChar _ (by omega)

theorem toNat_ofNat_byte (b : UInt8) : (Char.ofNat b.toNat).toNat = b.toNat := by
  have hlt := b.toNat_lt
  have hvalid : b.toNat.isValidChar := Or.inl (by omega)
  rw [Char.ofNat, dif_pos hvalid]
  rfl

theorem spells_printedByte {b : UInt8} (h : b ≠ 0) : Spells [b] (printedByte b) := by
  have hzero : b.toNat ≠ 0 := fun he => h (UInt8.toNat_inj.mp he)
  unfold printedByte
  by_cases hplain : (decide (31 < b) && decide (b ≠ 34) && decide (b ≠ 92)) = true
  · rw [if_pos hplain]
    simp only [Bool.and_eq_true, decide_eq_true_eq] at hplain
    exact .plain (UInt8.le_iff_toNat_le.mpr (UInt8.lt_iff_toNat_lt.mp hplain.1.1))
      hplain.1.2 hplain.2 .nil
  rw [if_neg hplain]
  split
  · next he => subst he; exact .short (by decide) .nil
  split
  · next he => subst he; exact .short (by decide) .nil
  split
  · next he => subst he; exact .short (by decide) .nil
  split
  · next he => subst he; exact .short (by decide) .nil
  split
  · next he => subst he; exact .short (by decide) .nil
  split
  · next he => subst he; exact .short (by decide) .nil
  split
  · next he => subst he; exact .short (by decide) .nil
  · next h92 h34 h8 h12 h10 h13 h9 =>
    have hlow : b.toNat < 32 := by
      simp only [Bool.and_eq_true, decide_eq_true_eq, not_and, UInt8.lt_iff_toNat_lt,
        UInt8.reduceToNat] at hplain
      by_contra hge
      exact hplain ⟨by omega, h34⟩ h92
    have hchar := toNat_ofNat_byte b
    have hspell := @Spells.unit [] [] _ (Char.ofNat b.toNat) (by rw [hchar]; exact hzero)
      (by rw [hchar]; exact hex4_unit b) .nil
    have hutf8 : String.utf8EncodeChar (Char.ofNat b.toNat) = [b] := by
      rw [← utf8_char, hchar, utf8_one (by omega), UInt8.ofNat_toNat]
    rw [hutf8] at hspell
    exact hspell

theorem spells_printed {s : Bytes} (h : 0 ∉ s) : Spells s (s.flatMap printedByte) := by
  induction s with
  | nil => exact .nil
  | cons b s ih =>
    have hb : b ≠ 0 := fun he => h (he ▸ List.mem_cons_self)
    rw [List.flatMap_cons]
    exact (spells_printedByte hb).append (ih fun hs => h (List.mem_cons_of_mem _ hs))

theorem length_printedByte (b : UInt8) : (printedByte b).length = counted b := by
  have hall : ∀ n < 256, (printedByte (UInt8.ofNat n)).length = counted (UInt8.ofNat n) := by
    decide +kernel
  have hb := hall b.toNat b.toNat_lt
  rw [UInt8.ofNat_toNat] at hb
  exact hb

theorem printed_plain {s : Bytes} (hzero : 0 ∉ s) (h : s.any flagged = false) :
    s.flatMap printedByte = s := by
  induction s with
  | nil => rfl
  | cons b s ih =>
    rw [List.any_cons, Bool.or_eq_false_iff] at h
    have hb : b ≠ 0 := fun he => hzero (he ▸ List.mem_cons_self)
    have hone : printedByte b = [b] := by
      have hflag := h.1
      simp only [flagged, Bool.or_eq_false_iff, Bool.and_eq_false_iff, decide_eq_false_iff_not,
        not_not, UInt8.lt_iff_toNat_lt, UInt8.reduceToNat, hb, false_or] at hflag
      have hlow : (31 : UInt8) < b := by
        rw [UInt8.lt_iff_toNat_lt]
        exact Nat.lt_of_not_ge fun hge => hflag.1.1 (Nat.lt_succ_of_le hge)
      unfold printedByte
      simp [hlow, hflag.1.2, hflag.2]
    rw [List.flatMap_cons, hone, ih (fun hs => hzero (List.mem_cons_of_mem _ hs)) h.2]
    rfl

/-! ## What all of a document keeps -/

section

variable {D : Type} (p : Int → D → Prop) (q : Bytes → Prop)

mutual

/-- Each number of a document is as `p` says, and each string and each name as `q` says. -/
def Item.All : Item D → Prop
  | .null => True
  | .bool _ => True
  | .number valueint valuedouble => p valueint valuedouble
  | .string valuestring => q valuestring
  | .array items => Item.AllItems items
  | .object members => Item.AllMembers members

def Item.AllItems : List (Item D) → Prop
  | [] => True
  | item :: items => item.All ∧ Item.AllItems items

def Item.AllMembers : List (Bytes × Item D) → Prop
  | [] => True
  | (name, item) :: members => q name ∧ item.All ∧ Item.AllMembers members

end

end

section

variable {D : Type} {p p' : Int → D → Prop} {q q' : Bytes → Prop}

mutual

theorem Item.All.mono (hp : ∀ n d, p n d → p' n d) (hq : ∀ s, q s → q' s) (item : Item D)
    (h : item.All p q) :
    item.All p' q' := by
  match item with
  | .null => trivial
  | .bool _ => trivial
  | .number n d => exact hp n d h
  | .string s => exact hq s h
  | .array items => exact Item.AllItems.mono hp hq items h
  | .object members => exact Item.AllMembers.mono hp hq members h

theorem Item.AllItems.mono (hp : ∀ n d, p n d → p' n d) (hq : ∀ s, q s → q' s)
    (items : List (Item D)) (h : Item.AllItems p q items) : Item.AllItems p' q' items := by
  match items with
  | [] => trivial
  | item :: items => exact ⟨Item.All.mono hp hq item h.1, Item.AllItems.mono hp hq items h.2⟩

theorem Item.AllMembers.mono (hp : ∀ n d, p n d → p' n d) (hq : ∀ s, q s → q' s)
    (members : List (Bytes × Item D)) (h : Item.AllMembers p q members) :
    Item.AllMembers p' q' members := by
  match members with
  | [] => trivial
  | (name, item) :: members =>
    exact ⟨hq name h.1, Item.All.mono hp hq item h.2.1, Item.AllMembers.mono hp hq members h.2.2⟩

end

end

/-! ## What is written -/

theorem filled_room {len : Int} {out : Bytes} (h : (out.length : Int) + 1 ≤ len)
    (hlen : len < 2147483648) :
    filled len out = .ok (some out) := by
  have hint : i32 len = len := i32_of_range (by omega) hlen
  unfold filled
  rw [hint, if_neg (by omega), if_pos h]

/-- The text of a string between its quotes. -/
def renderedString (s : Bytes) : Bytes := 34 :: ((cstr s).flatMap printedByte ++ [34])

/-- The buffer of a string has the length of its text and a NUL, exactly. -/
theorem printStringPtr_eq (s : Bytes) :
    printStringPtr s = filled ((renderedString s).length + 1) (renderedString s) := by
  unfold printStringPtr renderedString
  by_cases h : ((cstr s).any flagged) = true
  · have hlength : ((cstr s).flatMap printedByte).length = ((cstr s).map counted).sum := by
      rw [List.length_flatMap, List.map_congr_left fun b _ => length_printedByte b]
    rw [if_pos h, List.length_cons, List.length_append, hlength, List.length_singleton]
    congr 1
  · rw [Bool.not_eq_true] at h
    rw [if_neg (by rw [h]; decide), printed_plain (zero_notMem_cstr s) h, List.length_cons,
      List.length_append, List.length_singleton]
    congr 1

section

variable {D : Type} (fp : Doubles D) (fmt : Bool)

def renderedNumber (valueint : Int) (valuedouble : D) : Bytes :=
  if fp.isZero valuedouble then text "0"
  else if fp.sameInt valueint valuedouble then printedInt valueint
  else fp.render valuedouble

mutual

/-- The text of an item, without the buffers. -/
def rendered (depth : Nat) : Item D → Bytes
  | .null => text "null"
  | .bool b => text (if b then "true" else "false")
  | .number valueint valuedouble => renderedNumber fp valueint valuedouble
  | .string valuestring => renderedString valuestring
  | .array items => 91 :: (joinItems fmt (renderedItems (depth + 1) items) ++ [93])
  | .object [] => 123 :: ((if fmt then 10 :: tabs (depth - 1) else []) ++ [125])
  | .object (member :: members) =>
    123 ::
      ((if fmt then [10] else []) ++
        (joinMembers fmt (depth + 1) (renderedMembers (depth + 1) (member :: members)) ++
      ((if fmt then tabs depth else []) ++ [125])))

def renderedItems (depth : Nat) : List (Item D) → List Bytes
  | [] => []
  | item :: items => rendered depth item :: renderedItems depth items

def renderedMembers (depth : Nat) : List (Bytes × Item D) → List (Bytes × Bytes)
  | [] => []
  | (name, item) :: members =>
    (renderedString name, rendered depth item) :: renderedMembers depth members

end

end

/-! ## The lengths that are counted -/

/-- What `print_array` counts is enough, and not much more than twice what it writes. -/
theorem joinItems_room (fmt : Bool) {entries : List Bytes} (h : entries ≠ []) :
    (joinItems fmt entries).length + 4 ≤
      5 + (entries.map fun e => e.length + 2 + (if fmt then 1 else 0)).sum ∧
      (entries.map fun e => e.length + 2 + (if fmt then 1 else 0)).sum ≤
        3 * (joinItems fmt entries).length + 3 := by
  induction entries with
  | nil => exact absurd rfl h
  | cons entry entries ih =>
    cases entries with
    | nil => cases fmt <;> simp [joinItems] <;> omega
    | cons entry' entries =>
      have hrest := ih (List.cons_ne_nil _ _)
      cases fmt <;> simp [joinItems] at hrest ⊢ <;> omega

theorem joinMembers_room (fmt : Bool) (depth : Nat) {members : List (Bytes × Bytes)}
    (h : members ≠ []) :
    (joinMembers fmt depth members).length + 1 =
      (members.map fun e => e.2.length + e.1.length + 2 + (if fmt then 2 + depth else 0)).sum := by
  induction members with
  | nil => exact absurd rfl h
  | cons member members ih =>
    obtain ⟨name, entry⟩ := member
    cases members with
    | nil => cases fmt <;> simp [joinMembers, tabs] <;> omega
    | cons member' members =>
      have hrest := ih (List.cons_ne_nil _ _)
      rw [List.map_cons, List.sum_cons, ← hrest]
      cases fmt <;> simp [joinMembers, tabs] <;> omega

/-- What `print_object` counts is six bytes more than it writes. -/
theorem object_room (fmt : Bool) (depth : Nat) {members : List (Bytes × Bytes)} (h : members ≠ []) :
    (123 :: ((if fmt then [10] else []) ++ (joinMembers fmt (depth + 1) members ++
        ((if fmt then tabs depth else []) ++ [125])))).length + 6 =
      7 + (if fmt then depth + 1 else 0) + (members.map fun e => e.2.length + e.1.length + 2 +
        (if fmt then 2 + (depth + 1) else 0)).sum := by
  rw [← joinMembers_room fmt (depth + 1) h]
  cases fmt
  · simp
    omega
  · simp [tabs]
    omega

theorem length_joinItems {fmt : Bool} {entries : List Bytes} {e : Bytes} (h : e ∈ entries) :
    e.length ≤ (joinItems fmt entries).length := by
  induction entries with
  | nil => cases h
  | cons entry entries ih =>
    cases entries with
    | nil =>
      rw [List.mem_singleton.mp h]
      exact le_rfl
    | cons entry' entries =>
      rcases List.mem_cons.mp h with rfl | h
      · simp [joinItems]
      · have hrest := ih h
        simp [joinItems] at hrest ⊢
        omega

theorem length_joinMembers {fmt : Bool} {depth : Nat} {members : List (Bytes × Bytes)}
    {e : Bytes × Bytes} (h : e ∈ members) :
    e.1.length + e.2.length ≤ (joinMembers fmt depth members).length := by
  induction members with
  | nil => cases h
  | cons member members ih =>
    rcases List.mem_cons.mp h with rfl | h
    · simp [joinMembers]
      omega
    · have hrest := ih h
      simp [joinMembers] at hrest ⊢
      omega

/-! ## The printer writes the text -/

section

variable {D : Type} {fp : Doubles D} {fmt : Bool}

theorem length_printedInt {n : Int} (h : IsInt n) : (printedInt n).length ≤ 11 := by
  obtain ⟨hlow, hhigh⟩ := h
  have hdigits : (Nat.toDigits 10 n.natAbs).length ≤ 10 := by
    rw [Nat.length_toDigits_le_iff (by decide) (by decide)]
    omega
  unfold printedInt decimal
  rw [List.length_append, List.length_map]
  split <;> simp <;> omega

theorem printNumber_rendered {n : Int} (hn : IsInt n) {d : D} (hd : (fp.render d).length < 64) :
    printNumber fp n d = .ok (some (renderedNumber fp n d)) := by
  have hint := length_printedInt hn
  unfold printNumber renderedNumber
  split
  · exact filled_room (by decide) (by decide)
  · split
    · exact filled_room (by omega) (by decide)
    · exact filled_room (by omega) (by decide)

theorem printStringPtr_rendered {s : Bytes} (h : (renderedString s).length < 536870912) :
    printStringPtr s = .ok (some (renderedString s)) := by
  rw [printStringPtr_eq]
  exact filled_room (Int.le_refl _) (by omega)

theorem renderedItems_ne_nil (fp : Doubles D) (fmt : Bool) (depth : Nat) (item : Item D)
    (items : List (Item D)) :
    renderedItems fp fmt depth (item :: items) ≠ [] := by
  rw [renderedItems]
  exact List.cons_ne_nil _ _

theorem renderedMembers_ne_nil (fp : Doubles D) (fmt : Bool) (depth : Nat) (member : Bytes × Item D)
    (members : List (Bytes × Item D)) : renderedMembers fp fmt depth (member :: members) ≠ [] := by
  rw [renderedMembers]
  exact List.cons_ne_nil _ _

mutual

/-- The printer gives the text of an item in full: no buffer is too short for what it gets, as long
as no length of it runs out of an `int`. -/
theorem printValue_rendered (item : Item D)
    (h : item.All (fun n d => printNumber fp n d = .ok (some (renderedNumber fp n d)))
      (fun _ => True))
    (depth : Nat) (hlen : (rendered fp fmt depth item).length < 536870912) :
    printValue fp fmt depth item = .ok (some (rendered fp fmt depth item)) := by
  match item with
  | .null => rfl
  | .bool false => rfl
  | .bool true => rfl
  | .number n d => exact h
  | .string s => exact printStringPtr_rendered hlen
  | .array [] => exact filled_room (by decide) (by decide)
  | .array (item :: items) =>
    rw [rendered] at hlen ⊢
    obtain ⟨hlow, hhigh⟩ := joinItems_room fmt (renderedItems_ne_nil fp fmt (depth + 1) item items)
    have htotal :
        (91 :: (joinItems fmt (renderedItems fp fmt (depth + 1) (item :: items)) ++ [93])).length =
        (joinItems fmt (renderedItems fp fmt (depth + 1) (item :: items))).length + 2 := by simp
    have hitems := printItems_rendered (item :: items) h (depth + 1)
      (fun e he => by have := @length_joinItems fmt _ e he; omega)
    rw [printValue, hitems]
    exact filled_room (by omega) (by omega)
  | .object [] =>
    rw [rendered] at hlen ⊢
    have htotal : ((123 :: ((if fmt then 10 :: tabs (depth - 1) else []) ++ [125])).length : Int) +
        1 ≤
        (if fmt then (depth : Int) + 4 else 3) ∧
            (if fmt then (depth : Int) + 4 else 3) < 2147483648 := by
      cases fmt
      · simp
      · simp [tabs] at hlen ⊢
        omega
    exact filled_room htotal.1 htotal.2
  | .object (member :: members) =>
    rw [rendered] at hlen ⊢
    have hjoin :=
      @length_joinMembers fmt (depth + 1) (renderedMembers fp fmt (depth + 1) (member :: members))
    have hroom := object_room fmt depth (renderedMembers_ne_nil fp fmt (depth + 1) member members)
    have hmembers := printMembers_rendered (member :: members) h (depth + 1)
      (fun e he => by
        have := hjoin he; simp only [List.length_cons, List.length_append] at hlen; omega)
    rw [printValue, hmembers]
    exact filled_room (by omega) (by omega)

theorem printItems_rendered (items : List (Item D))
    (h : Item.AllItems (fun n d => printNumber fp n d = .ok (some (renderedNumber fp n d)))
      (fun _ => True) items)
    (depth : Nat) (hlen : ∀ e ∈ renderedItems fp fmt depth items, e.length < 536870912) :
    printItems fp fmt depth items = .ok (some (renderedItems fp fmt depth items)) := by
  match items with
  | [] => rfl
  | item :: items =>
    have hvalue :=
      printValue_rendered item h.1 depth (hlen _ (by rw [renderedItems]; exact List.mem_cons_self))
    have hitems := printItems_rendered items h.2 depth
      (fun e he => hlen e (by rw [renderedItems]; exact List.mem_cons_of_mem _ he))
    rw [printItems, hvalue, hitems]
    rfl

theorem printMembers_rendered (members : List (Bytes × Item D))
    (h : Item.AllMembers (fun n d => printNumber fp n d = .ok (some (renderedNumber fp n d)))
      (fun _ => True) members)
    (depth : Nat)
    (hlen : ∀ e ∈ renderedMembers fp fmt depth members, e.1.length + e.2.length < 536870912) :
    printMembers fp fmt depth members = .ok (some (renderedMembers fp fmt depth members)) := by
  match members with
  | [] => rfl
  | (name, item) :: members =>
    have hroom := hlen _ (by rw [renderedMembers]; exact List.mem_cons_self)
    have hname := printStringPtr_rendered (s := name) (by simp only at hroom; omega)
    have hvalue := printValue_rendered item h.2.1 depth (by simp only at hroom; omega)
    have hmembers := printMembers_rendered members h.2.2 depth
      (fun e he => hlen e (by rw [renderedMembers]; exact List.mem_cons_of_mem _ he))
    rw [printMembers, hname, hvalue, hmembers]
    rfl

end

/-! ## The text is one of the grammar -/

theorem isSpaces_ite {w : Bytes} (h : IsSpaces w) : IsSpaces (if fmt then w else []) := by
  cases fmt
  · exact fun b hb => absurd hb List.not_mem_nil
  · exact h

theorem isSpaces_one {b : UInt8} (h : b = 9 ∨ b = 10 ∨ b = 13 ∨ b = 32) : IsSpaces [b] := by
  intro c hc
  rw [List.mem_singleton.mp hc]
  exact h

theorem isSpaces_tabs (n : Nat) : IsSpaces (tabs n) :=
  fun _ hb => Or.inl (List.eq_of_mem_replicate hb)

theorem IsSpaces.append {w w' : Bytes} (h : IsSpaces w) (h' : IsSpaces w') :
    IsSpaces (w ++ w') := by
  intro b hb
  rcases List.mem_append.mp hb with hb | hb
  · exact h b hb
  · exact h' b hb

theorem isSpaces_nil : IsSpaces [] := fun _ hb => absurd hb List.not_mem_nil

theorem isText_number (hfp : fp.Exact) {n : Int} (hn : IsInt n) :
    IsText fp (.number n (fp.ofInt n)) (renderedNumber fp n (fp.ofInt n)) := by
  have htext := @IsText.number D fp (intNumber n)
  rw [intNumber_value hfp hn, hfp.toInt n hn, intNumber_bytes] at htext
  unfold renderedNumber
  rw [hfp.isZero n hn, hfp.sameInt n hn]
  by_cases hzero : n = 0
  · subst hzero
    exact htext
  · rw [decide_eq_false hzero]
    exact htext

theorem isText_string {s : Bytes} (h : 0 ∉ s) : IsText fp (.string s) (renderedString s) := by
  rw [renderedString, cstr_of_notMem h]
  exact .string (spells_printed h)

/-- The documents that the program makes: each number an `int`, and no NUL in a string. -/
def Item.Plain (fp : Doubles D) : Item D → Prop :=
  Item.All (fun n d => IsInt n ∧ d = fp.ofInt n) (fun s => 0 ∉ s)

mutual

theorem isText_rendered (hfp : fp.Exact) (item : Item D) (h : item.Plain fp) (depth : Nat) :
    IsText fp item (rendered fp fmt depth item) := by
  match item with
  | .null => exact .null
  | .bool b => exact .bool b
  | .number n d =>
    obtain ⟨hn, rfl⟩ := h
    exact isText_number hfp hn
  | .string s => exact isText_string h
  | .array [] => exact .nilArray isSpaces_nil
  | .array (item :: items) =>
    rw [rendered]
    exact .array
      (areItems_rendered hfp (item :: items) (List.cons_ne_nil _ _) h (depth + 1) isSpaces_nil)
  | .object [] =>
    rw [rendered]
    exact .nilObject (isSpaces_ite ((isSpaces_one (by simp)).append (isSpaces_tabs (depth - 1))))
  | .object (member :: members) =>
    rw [rendered, ← List.append_assoc _ _ [125], ← List.append_assoc _ _ [125]]
    exact .object (areMembers_rendered hfp (member :: members) (List.cons_ne_nil _ _) h (depth + 1)
      (isSpaces_ite (isSpaces_one (by simp))) (isSpaces_ite (isSpaces_tabs depth)))

theorem areItems_rendered (hfp : fp.Exact) (items : List (Item D)) (hne : items ≠ [])
    (h : Item.AllItems (fun n d => IsInt n ∧ d = fp.ofInt n) (fun s => 0 ∉ s) items) (depth : Nat)
    {w : Bytes} (hw : IsSpaces w) :
    AreItems fp items (w ++ joinItems fmt (renderedItems fp fmt depth items)) := by
  match items with
  | [item] =>
    have hitem : IsText fp item (rendered fp fmt depth item) := isText_rendered hfp item h.1 depth
    have hlast := AreItems.last hw hitem isSpaces_nil
    rw [List.append_nil] at hlast
    exact hlast
  | item :: item' :: items =>
    have hitem : IsText fp item (rendered fp fmt depth item) := isText_rendered hfp item h.1 depth
    exact .more hw hitem isSpaces_nil
      (areItems_rendered hfp (item' :: items) (List.cons_ne_nil _ _) h.2 depth
      (isSpaces_ite (isSpaces_one (by simp))))

theorem areMembers_rendered (hfp : fp.Exact) (members : List (Bytes × Item D)) (hne : members ≠ [])
    (h : Item.AllMembers (fun n d => IsInt n ∧ d = fp.ofInt n) (fun s => 0 ∉ s) members)
    (depth : Nat) {w w' : Bytes} (hw : IsSpaces w) (hw' : IsSpaces w') :
    AreMembers fp members
      (w ++ (joinMembers fmt depth (renderedMembers fp fmt depth members) ++ w')) := by
  have hcolon : IsSpaces (if fmt then [9] else []) := isSpaces_ite (isSpaces_one (by simp))
  have hline : IsSpaces (if fmt then [10] else []) := isSpaces_ite (isSpaces_one (by simp))
  have hbefore : IsSpaces (w ++ (if fmt then tabs depth else [])) :=
    hw.append (isSpaces_ite (isSpaces_tabs depth))
  match members with
  | [(name, item)] =>
    have hitem : IsText fp item (rendered fp fmt depth item) := isText_rendered hfp item h.2.1 depth
    have hlast :=
      AreMembers.last hbefore (spells_printed h.1) isSpaces_nil hcolon hitem (hline.append hw')
    simpa [renderedMembers, joinMembers, renderedString, cstr_of_notMem h.1] using hlast
  | (name, item) :: member :: members =>
    have hitem : IsText fp item (rendered fp fmt depth item) := isText_rendered hfp item h.2.1 depth
    have hmembers :=
      areMembers_rendered hfp (member :: members) (List.cons_ne_nil _ _) h.2.2 depth hline hw'
    have hmore :=
      AreMembers.more hbefore (spells_printed h.1) isSpaces_nil hcolon hitem isSpaces_nil hmembers
    simpa [renderedMembers, joinMembers, renderedString, cstr_of_notMem h.1] using hmore

end

theorem printNumber_int (hfp : fp.Exact) {n : Int} (hn : IsInt n) :
    printNumber fp n (fp.ofInt n) = .ok (some (renderedNumber fp n (fp.ofInt n))) := by
  have hint := length_printedInt hn
  unfold printNumber renderedNumber
  simp only [hfp.isZero n hn, hfp.sameInt n hn, if_true]
  split
  · exact filled_room (by decide) (by decide)
  · exact filled_room (by omega) (by decide)

theorem printValue_plain (hfp : fp.Exact) (item : Item D) (h : item.Plain fp)
    (hlen : (rendered fp fmt 0 item).length < 536870912) :
    printValue fp fmt 0 item = .ok (some (rendered fp fmt 0 item)) := by
  refine printValue_rendered item (Item.All.mono ?_ (fun _ _ => trivial) item h) 0 hlen
  rintro n d ⟨hn, rfl⟩
  exact printNumber_int hfp hn

theorem printTop_plain (hfp : fp.Exact) (item : Item D) (h : item.Plain fp) {stack : Nat}
    (hstack : item.nesting ≤ stack) (hlen : (rendered fp fmt 0 item).length < 536870912) :
    printTop fp fmt stack item = .ok (some (rendered fp fmt 0 item)) := by
  rw [printTop, if_pos hstack, printValue_plain hfp item h hlen]

theorem cJSON_Parse_rendered (hfp : fp.Exact) (item : Item D) (h : item.Plain fp) {stack : Nat}
    (hstack : item.nesting ≤ stack) (memory : Bytes) :
    cJSON_Parse fp stack (rendered fp fmt 0 item ++ 0 :: memory) = .taken item (0 :: memory) :=
  cJSON_Parse_text hfp isSpaces_nil (isText_rendered hfp item h 0)
    (endsNumber_cons (Or.inl rfl) memory) hstack

end

/-! ## Documents of the handlers -/

section

variable {D : Type} (fp : Doubles D)

mutual

/-- The items that the `cJSON_Create` functions make of a document. -/
def created : CJson → Item D
  | .null => .null
  | .bool b => .bool b
  | .number n => .number n (fp.ofInt n)
  | .string s => .string s
  | .array items => .array (createdItems items)
  | .object members => .object (createdMembers members)

def createdItems : List CJson → List (Item D)
  | [] => []
  | item :: items => created item :: createdItems items

def createdMembers : List (Bytes × CJson) → List (Bytes × Item D)
  | [] => []
  | (name, item) :: members => (name, created item) :: createdMembers members

end

mutual

/-- The document that the items hold, their doubles left out. -/
def Item.tree : Item D → CJson
  | .null => .null
  | .bool b => .bool b
  | .number n _ => .number n
  | .string s => .string s
  | .array items => .array (Item.trees items)
  | .object members => .object (Item.treeMembers members)

def Item.trees : List (Item D) → List CJson
  | [] => []
  | item :: items => item.tree :: Item.trees items

def Item.treeMembers : List (Bytes × Item D) → List (Bytes × CJson)
  | [] => []
  | (name, item) :: members => (name, item.tree) :: Item.treeMembers members

end

mutual

theorem tree_created (j : CJson) : (created fp j).tree = j := by
  match j with
  | .null => rfl
  | .bool _ => rfl
  | .number _ => rfl
  | .string _ => rfl
  | .array items => exact congrArg CJson.array (trees_created items)
  | .object members => exact congrArg CJson.object (treeMembers_created members)

theorem trees_created (items : List CJson) : Item.trees (createdItems fp items) = items := by
  match items with
  | [] => rfl
  | item :: items => rw [createdItems, Item.trees, tree_created item, trees_created items]

theorem treeMembers_created (members : List (Bytes × CJson)) :
    Item.treeMembers (createdMembers fp members) = members := by
  match members with
  | [] => rfl
  | (name, item) :: members =>
    rw [createdMembers, Item.treeMembers, tree_created item, treeMembers_created members]

end

end

/-! ## Whole doubles -/

theorem length_wholeDoubles (d : Int) : (wholeDoubles.render d).length < 64 := by
  show (if d.natAbs < 10 ^ 60 then printedInt d else text "1.000000e+60").length < 64
  split
  · next h =>
    have hdigits : (Nat.toDigits 10 d.natAbs).length ≤ 60 := by
      rw [Nat.length_toDigits_le_iff (by decide) (by decide)]
      exact h
    unfold printedInt decimal
    rw [List.length_append, List.length_map]
    split <;> simp <;> omega
  · decide

/-- A document with every kind of item in it. -/
def sample : CJson := .object [(text "list", .array [.number (-12), .bool true, .object [], .null]),
  (text "a name", .string [34, 10, 1, 47, 195, 169])]

theorem plain_sample : (created wholeDoubles sample).Plain wholeDoubles :=
  ⟨by decide, ⟨⟨⟨by decide, by decide⟩, rfl⟩, trivial, trivial, trivial, trivial⟩, by decide,
    (by decide : (0 : UInt8) ∉ [34, 10, 1, 47, 195, 169]), trivial⟩

/-! ## The laws -/

section

variable {D : Type} {fp : Doubles D} {fmt : Bool}

/-- A number, a string or a document that is printed, with any doubles among the numbers, fits its
buffers. -/
theorem the_printer_stays_in_its_buffers (hrender : ∀ d, (fp.render d).length < 64) (item : Item D)
    (h : item.All (fun n _ => IsInt n) (fun _ => True))
    (hlen : (rendered fp fmt 0 item).length < 536870912) :
    printValue fp fmt 0 item = .ok (some (rendered fp fmt 0 item)) :=
  printValue_rendered item (Item.All.mono (fun _ d hn => printNumber_rendered hn (hrender d))
    (fun _ hs => hs) item h) 0 hlen

theorem the_sample_stays_in_its_buffers :
    printValue wholeDoubles true 0 (created wholeDoubles sample) =
      .ok (some (rendered wholeDoubles true 0 (created wholeDoubles sample))) :=
  the_printer_stays_in_its_buffers length_wholeDoubles _
    ⟨trivial, ⟨⟨by decide, by decide⟩, trivial, trivial, trivial, trivial⟩, trivial,
      trivial, trivial⟩
    (by decide +kernel)

/-- What is printed of a document gives it back, whatever memory is behind its NUL. -/
theorem printTop_parsed (hfp : fp.Exact) {j : CJson} (h : (created fp j).Plain fp) {stack : Nat}
    (hstack : (created fp j).nesting ≤ stack)
    (hlen : (rendered fp fmt 0 (created fp j)).length < 536870912) (memory : Bytes) :
    ∃ t item, printTop fp fmt stack (created fp j) = .ok (some t) ∧
      cJSON_Parse fp stack (t ++ 0 :: memory) = .taken item (0 :: memory) ∧ item.tree = j :=
  ⟨_, _, printTop_plain hfp _ h hstack hlen, cJSON_Parse_rendered hfp _ h hstack memory,
    tree_created fp j⟩

/-- The text of a document that a handler makes, nested no deeper than the stack has room for, gives
its reader the same document, formatted or not and whatever memory is behind its NUL. -/
theorem a_document_is_read_as_it_was_made (hfp : fp.Exact) (j : CJson) (h : (created fp j).Plain fp)
    {stack : Nat} (hstack : (created fp j).nesting ≤ stack)
    (hlen : ∀ fmt, (rendered fp fmt 0 (created fp j)).length < 536870912) (memory : Bytes) :
    (∃ t item, cJSON_Print fp stack (created fp j) = .ok (some t) ∧
      cJSON_Parse fp stack (t ++ 0 :: memory) = .taken item (0 :: memory) ∧ item.tree = j) ∧
    ∃ t item, cJSON_PrintUnformatted fp stack (created fp j) = .ok (some t) ∧
      cJSON_Parse fp stack (t ++ 0 :: memory) = .taken item (0 :: memory) ∧ item.tree = j :=
  ⟨printTop_parsed hfp h hstack (hlen true) memory,
    printTop_parsed hfp h hstack (hlen false) memory⟩

theorem the_sample_is_read_as_it_was_made :
    ∃ t item, cJSON_Print wholeDoubles 3 (created wholeDoubles sample) = .ok (some t) ∧
      cJSON_Parse wholeDoubles 3 (t ++ 0 :: [34, 34]) = .taken item (0 :: [34, 34]) ∧
        item.tree = sample := by
  have hlen : ∀ fmt, (rendered wholeDoubles fmt 0 (created wholeDoubles sample)).length <
      536870912 := by
    decide +kernel
  exact (a_document_is_read_as_it_was_made exact_wholeDoubles sample plain_sample (by decide)
    hlen [34, 34]).1

end

end util.cjson

-- `CAoCfgModule`: the configurations of the modules in one file, a member for each. The laws are
-- about runs of its two messages: the file refines a map from ids to documents, and loading sends
-- each module the document that was last saved for it.
import Aods.JsonRoundTrips
import Aods.Runs
import Mathlib.Data.List.Nodup

open machine scanf runs
open util.json (text sameName)
open util.cjson

namespace util.ao_cfg_module

section

variable {D : Type} (fp : Doubles D) (stack : Nat)

/-! ## The model -/

def EN_MODULE_ID_BROADCAST : Int := 0
def EN_AO_MSG_LOAD_CFG : Nat := 7
def EN_AO_MSG_LOAD_CCF : Nat := 8
def EN_AO_MSG_SAVE_CFG_SIZE : Nat := 4

/-- A call of `SendOutMsg`. -/
structure Sent where
  un_rmi : Nat
  un_msg_code : Nat
  data : Bytes
  deriving DecidableEq

/-- The messages of the module. A save comes with whether the file can be opened for writing. -/
inductive Event where
  | start
  | save (data : Bytes) (opens : Bool)

/-- A document, or null. -/
def parsed (p : Parsed (Item D)) : Except Fault (Option (Item D)) :=
  match p with
  | .taken item _ => .ok (some item)
  | .failed _ => .ok none
  | .deep => .error .stack_overflow
  | .overrun => .error .overrun

/-- A pointer that the code takes for granted. -/
def nonNull {α : Type} (p : Option α) : Except Fault α :=
  match p with
  | none => .error .null_pointer
  | some a => .ok a

/-- The bytes of the file, when it can be opened, with a NUL behind them. -/
def getConfigBuf (file : Option Bytes) : Option Bytes := file.map (· ++ [0])

/-- What stands in the file after `SaveConfigBuf`. -/
def saveConfigBuf (file : Option Bytes) (psz_buf : Bytes) (opens : Bool) : Option Bytes :=
  if opens then some psz_buf else file

def isComposite : Item D → Bool
  | .array _ => true
  | .object _ => true
  | _ => false

/-- The loop of `StartLoad` over the items of the file with their names, from one of them on. -/
def loads (n_module_id : Int) : List (Option Bytes × Item D) → Except Fault (List Sent)
  | [] => .ok []
  | (name, item) :: items =>
    if isComposite item then do
      let name ← nonNull name
      let id := ((scanD (cstr name)).map Prod.fst).getD n_module_id
      let psz_json_buf ← nonNull (← cJSON_PrintUnformatted fp stack item)
      let sent :=
        ⟨u32 id, if id = EN_MODULE_ID_BROADCAST then EN_AO_MSG_LOAD_CCF else EN_AO_MSG_LOAD_CFG,
        psz_json_buf ++ [0]⟩
      return sent :: (← loads id items)
    else loads n_module_id items

/-- The items below an item, with their names when it has such. -/
def children : Item D → List (Option Bytes × Item D)
  | .array items => items.map fun item => (none, item)
  | .object members => members.map fun m => (some m.1, m.2)
  | _ => []

def startLoad (file : Option Bytes) : Except Fault (List Sent) :=
  match getConfigBuf file with
  | none => .ok []
  | some psz_json_buf => do
    match ← parsed (cJSON_Parse fp stack psz_json_buf) with
    | none => return []
    | some p_json => loads fp stack 0 (children p_json)

/-- `cJSON_DeleteItemFromObject`: the first one of that name. The items of an array have no
names. -/
def deleteItemFromObject (object : Item D) (name : Bytes) : Item D :=
  match object with
  | .object members => .object (members.eraseP fun m => sameName m.1 name)
  | _ => object

/-- `cJSON_AddItemToObject`, as far as it is printed: what is neither an array nor an object is
printed without what is below it. -/
def addItemToObject (object : Item D) (name : Bytes) (item : Item D) : Item D :=
  match object with
  | .object members => .object (members ++ [(name, item)])
  | .array items => .array (items ++ [item])
  | _ => object

/-- What `SaveCfg` prints: the file's object, with the module's document in place of an old one. -/
def newCfg (file : Option Bytes) (sz_module_id : Bytes) (p_json : Item D) : Except Fault (Item D) :=
  match getConfigBuf file with
  | none => .ok (addItemToObject (.object []) sz_module_id p_json)
  | some psz_json_buf => do
    let p_old ← parsed (cJSON_Parse fp stack psz_json_buf)
    return addItemToObject (deleteItemFromObject (p_old.getD (.object [])) sz_module_id)
      sz_module_id p_json

def saveCfg (file : Option Bytes) (data : Bytes) (opens : Bool) : Except Fault (Option Bytes) :=
  if data.length < EN_AO_MSG_SAVE_CFG_SIZE then .ok file
  else do
    match ← parsed (cJSON_Parse fp stack (data.drop 4)) with
    | none => return file
    | some p_json =>
      let p_cfg ← newCfg fp stack file (decimal (word (data.take 4))) p_json
      let psz_json_cfg ← nonNull (← cJSON_PrintUnformatted fp stack p_cfg)
      return saveConfigBuf file psz_json_cfg opens

def handle : Handler (Option Bytes) Event Sent Fault
  | file, .start => do return (file, ← startLoad fp stack file)
  | file, .save data opens => do return (← saveCfg fp stack file data opens, [])

/-! ## The reference map -/

/-- What a message has to save, and for which module. -/
def docOf (data : Bytes) : Option (Nat × Item D) :=
  if data.length < EN_AO_MSG_SAVE_CFG_SIZE then none
  else
    match cJSON_Parse fp stack (data.drop 4) with
    | .taken item _ => some (word (data.take 4), item)
    | _ => none

/-- What it does save, when the file can be opened. -/
def savedBy : Event → Option (Nat × Item D)
  | .save data true => docOf fp stack data
  | _ => none

/-- The document that was last saved for each module in a history, or that it had at first. -/
def latest (start : Nat → Option (Item D)) : List (Event × List Sent) → Nat → Option (Item D)
  | [] => start
  | (e, _) :: es =>
    match savedBy fp stack e with
    | none => latest start es
    | some (id, item) => Function.update (latest start es) id (some item)

/-- The members of the file. -/
def members (cfg : List (Nat × Item D)) : List (Bytes × Item D) :=
  cfg.map fun e => (decimal e.1, e.2)

/-- The entries behind a save. -/
def stored (cfg : List (Nat × Item D)) : Option (Nat × Item D) → List (Nat × Item D)
  | none => cfg
  | some (id, item) => (cfg.eraseP fun e => e.1 = id) ++ [(id, item)]

/-- The file holds these entries: it has no readable text, or one of an object with just these
members. -/
inductive Contents : Option Bytes → List (Nat × Item D) → Prop where
  | absent : Contents none []
  | unparsed {t ep : Bytes} (h : cJSON_Parse fp stack (t ++ [0]) = .failed ep) : Contents (some t)
      []
  | object {t rest : Bytes} {cfg : List (Nat × Item D)}
      (h : cJSON_Parse fp stack (t ++ [0]) = .taken (.object (members cfg)) rest) :
        Contents (some t) cfg

/-- A document that the program makes, and that the stack has room for in the object of the file. -/
def Made (item : Item D) : Prop := item.Plain fp ∧ item.nesting < stack

/-- The entries are those of the map, one for each module. -/
structure Entries (cfg : List (Nat × Item D)) (m : Nat → Option (Item D)) : Prop where
  hdistinct : (cfg.map Prod.fst).Nodup
  hmem : ∀ id item, (id, item) ∈ cfg ↔ m id = some item
  hid : ∀ e ∈ cfg, e.1 < 4294967296
  hmade : ∀ e ∈ cfg, Made fp stack e.2

/-- The file holds the map. -/
def Holds (file : Option Bytes) (m : Nat → Option (Item D)) : Prop :=
  ∃ cfg, Contents fp stack file cfg ∧ Entries fp stack cfg m

/-- What a save carries is no document at all, or one that the program makes. -/
def Proper : Event → Prop
  | .start => True
  | .save data _ =>
    data.length < EN_AO_MSG_SAVE_CFG_SIZE ∨
      (∃ ep, cJSON_Parse fp stack (data.drop 4) = .failed ep) ∨
      ∃ item rest, cJSON_Parse fp stack (data.drop 4) = .taken item rest ∧ Made fp stack item

/-- What a message has the file printed as stays below the lengths of an `int`. -/
def Fits (file : Option Bytes) (e : Event) : Prop :=
  ∀ cfg, Contents fp stack file cfg →
      (rendered fp false 0 (.object (members (stored cfg (match e with
    | .start => none
    | .save data _ => docOf fp stack data))))).length < 536870912

end

/-! ## Entries -/

theorem decimal_inj {a b : Nat} : decimal a = decimal b ↔ a = b := by
  constructor
  · intro h
    rw [← number_decimal a, h, number_decimal]
  · exact congrArg decimal

theorem zero_notMem_decimal (n : Nat) : 0 ∉ decimal n :=
  fun h => absurd (isDigit_decimal n 0 h) (by decide)

theorem sameName_decimal (a b : Nat) : sameName (decimal a) (decimal b) = decide (a = b) := by
  have hlower : ∀ n, (decimal n).map json.tolower = decimal n := by
    intro n
    refine (List.map_congr_left fun b hb => ?_).trans (List.map_id _)
    have hrange := (isDigit_iff b).mp (isDigit_decimal n b hb)
    have hupper : ¬ (65 ≤ b ∧ b ≤ 90) := by
      rintro ⟨h, -⟩
      have := UInt8.le_iff_toNat_le.mp h
      simp at this
      omega
    exact if_neg hupper
  unfold sameName
  rw [cstr_of_notMem (zero_notMem_decimal a), cstr_of_notMem (zero_notMem_decimal b), hlower,
    hlower]
  exact decide_eq_decide.mpr decimal_inj

section

variable {D : Type} {fp : Doubles D} {stack : Nat}

theorem eraseP_members (cfg : List (Nat × Item D)) (id : Nat) :
    (members cfg).eraseP (fun m => sameName m.1 (decimal id)) =
      members (cfg.eraseP fun e => e.1 = id) := by
  unfold members
  rw [List.eraseP_map]
  congr 2
  funext e
  exact sameName_decimal e.1 id

theorem mem_eraseP {cfg : List (Nat × Item D)} (h : (cfg.map Prod.fst).Nodup) (k id : Nat)
    (item : Item D) :
    (id, item) ∈ (cfg.eraseP fun e => e.1 = k) ↔ (id, item) ∈ cfg ∧ id ≠ k := by
  induction cfg with
  | nil => simp
  | cons e cfg ih =>
    rw [List.map_cons, List.nodup_cons] at h
    by_cases he : e.1 = k
    · rw [List.eraseP_cons_of_pos (by simpa using he)]
      constructor
      · intro hmem
        refine ⟨List.mem_cons_of_mem _ hmem, ?_⟩
        rintro rfl
        exact h.1 (he ▸ List.mem_map.mpr ⟨_, hmem, rfl⟩)
      · rintro ⟨hmem, hne⟩
        rcases List.mem_cons.mp hmem with rfl | hmem
        · exact absurd he hne
        · exact hmem
    · rw [List.eraseP_cons_of_neg (by simpa using he), List.mem_cons, ih h.2, List.mem_cons]
      constructor
      · rintro (rfl | ⟨hmem, hne⟩)
        · exact ⟨Or.inl rfl, he⟩
        · exact ⟨Or.inr hmem, hne⟩
      · rintro ⟨rfl | hmem, hne⟩
        · exact Or.inl rfl
        · exact Or.inr ⟨hmem, hne⟩

/-- A save changes the entries as it changes the map. -/
theorem entries_stored {cfg : List (Nat × Item D)} {m : Nat → Option (Item D)}
    (h : Entries fp stack cfg m) {id : Nat} {item : Item D} (hid : id < 4294967296)
    (hmade : Made fp stack item) :
    Entries fp stack (stored cfg (some (id, item))) (Function.update m id (some item)) := by
  refine ⟨?_, ?_, ?_, ?_⟩
  · have hsub : ((cfg.eraseP fun e => e.1 = id).map Prod.fst).Nodup :=
      h.hdistinct.sublist (List.eraseP_sublist.map Prod.fst)
    have hnew : id ∉ (cfg.eraseP fun e => e.1 = id).map Prod.fst := by
      intro hmem
      obtain ⟨⟨k, x⟩, he, rfl⟩ := List.mem_map.mp hmem
      exact ((mem_eraseP h.hdistinct _ _ _).mp he).2 rfl
    rw [stored, List.map_append, List.map_singleton]
    exact List.nodup_append.mpr ⟨hsub, List.nodup_singleton id, fun a ha b hb => by
      rw [List.mem_singleton.mp hb]
      rintro rfl
      exact hnew ha⟩
  · intro k x
    simp only [stored, List.mem_append, List.mem_singleton, Prod.mk.injEq, mem_eraseP h.hdistinct]
    by_cases hk : k = id
    · subst hk
      simp [eq_comm]
    · simp [hk, h.hmem k x]
  · intro e he
    rcases List.mem_append.mp he with he | he
    · exact h.hid e (List.mem_of_mem_eraseP he)
    · rw [List.mem_singleton.mp he]
      exact hid
  · intro e he
    rcases List.mem_append.mp he with he | he
    · exact h.hmade e (List.mem_of_mem_eraseP he)
    · rw [List.mem_singleton.mp he]
      exact hmade

theorem plain_members {cfg : List (Nat × Item D)} (h : ∀ e ∈ cfg, Made fp stack e.2) :
    (Item.object (members cfg)).Plain fp := by
  show Item.AllMembers _ _ (members cfg)
  induction cfg with
  | nil => trivial
  | cons e cfg ih =>
    exact ⟨zero_notMem_decimal e.1, (h e List.mem_cons_self).1,
      ih fun e he => h e (List.mem_cons_of_mem _ he)⟩

theorem nesting_members {cfg : List (Nat × Item D)} (hne : cfg ≠ [])
    (h : ∀ e ∈ cfg, Made fp stack e.2) :
    (Item.object (members cfg)).nesting ≤ stack := by
  have hall : ∀ cfg : List (Nat × Item D), (∀ e ∈ cfg, Made fp stack e.2) → 0 < stack →
      Item.nestingMembers (members cfg) < stack := by
    intro cfg h hpos
    induction cfg with
    | nil => exact hpos
    | cons e cfg ih =>
      have hrest := ih fun e he => h e (List.mem_cons_of_mem _ he)
      exact Nat.max_lt.mpr ⟨(h e List.mem_cons_self).2, hrest⟩
  obtain ⟨e, he⟩ := List.exists_mem_of_ne_nil cfg hne
  exact hall cfg h (Nat.zero_lt_of_lt (h e he).2)

theorem stored_ne_nil (cfg : List (Nat × Item D)) (e : Nat × Item D) : stored cfg (some e) ≠ [] :=
  List.append_ne_nil_of_right_ne_nil _ (List.cons_ne_nil _ _)

/-- What is printed of the members, and how it is read. -/
theorem printed_members (hfp : fp.Exact) {cfg : List (Nat × Item D)} (hne : cfg ≠ [])
    (h : ∀ e ∈ cfg, Made fp stack e.2)
    (hlen : (rendered fp false 0 (.object (members cfg))).length < 536870912) :
    cJSON_PrintUnformatted fp stack (.object (members cfg)) =
      .ok (some (rendered fp false 0 (.object (members cfg)))) ∧
      Contents fp stack (some (rendered fp false 0 (.object (members cfg)))) cfg :=
  ⟨printTop_plain hfp _ (plain_members h) (nesting_members hne h) hlen,
    .object (cJSON_Parse_rendered hfp _ (plain_members h) (nesting_members hne h) [])⟩

/-! ## A save -/

theorem parsed_taken {p : Parsed (Item D)} {item : Item D} {rest : Bytes}
    (h : p = .taken item rest) :
    parsed p = .ok (some item) := by
  rw [h]
  rfl

theorem newCfg_eq {file : Option Bytes} {cfg : List (Nat × Item D)} (h : Contents fp stack file cfg)
    (id : Nat) (item : Item D) :
    newCfg fp stack file (decimal id) item =
      .ok (.object (members (stored cfg (some (id, item))))) := by
  have hmembers : members (stored cfg (some (id, item))) =
      members (cfg.eraseP fun e => e.1 = id) ++ [(decimal id, item)] := by
    simp [members, stored]
  rw [hmembers]
  cases h with
  | absent => rfl
  | unparsed h =>
    simp only [newCfg, getConfigBuf, Option.map_some, h]
    rfl
  | object h =>
    rw [← eraseP_members]
    simp only [newCfg, getConfigBuf, Option.map_some, h]
    rfl

theorem saveCfg_eq (hfp : fp.Exact) {file : Option Bytes} {cfg : List (Nat × Item D)}
    (h : Contents fp stack file cfg) (hmade : ∀ e ∈ cfg, Made fp stack e.2) {data : Bytes}
    {id : Nat} {item : Item D} (hdoc : docOf fp stack data = some (id, item))
    (hitem : Made fp stack item)
    (hlen : (rendered fp false 0 (.object (members (stored cfg (some (id, item)))))).length <
      536870912) (opens : Bool) :
    saveCfg fp stack file data opens =
      .ok (saveConfigBuf file
        (rendered fp false 0 (.object (members (stored cfg (some (id, item)))))) opens) := by
  have hstored : ∀ e ∈ stored cfg (some (id, item)), Made fp stack e.2 := by
    intro e he
    rcases List.mem_append.mp he with he | he
    · exact hmade e (List.mem_of_mem_eraseP he)
    · rw [List.mem_singleton.mp he]
      exact hitem
  obtain ⟨hprint, -⟩ := printed_members hfp (stored_ne_nil cfg (id, item)) hstored hlen
  unfold docOf at hdoc
  split at hdoc
  · cases hdoc
  · next hsize =>
    split at hdoc
    · next x rest hp =>
      cases hdoc
      rw [saveCfg, if_neg hsize, parsed_taken hp]
      show (newCfg fp stack file (decimal (machine.word (data.take 4))) item >>= _) = _
      rw [newCfg_eq h]
      show (cJSON_PrintUnformatted fp stack _ >>= _) = _
      rw [hprint]
      rfl
    · cases hdoc

theorem word_lt_of_length {bs : Bytes} (h : bs.length ≤ 4) : machine.word bs < 4294967296 := by
  have hstep : ∀ (b : UInt8) (n k : Nat), n < k → b.toNat + 256 * n < 256 * k := by
    intro b n k hn
    have := b.toNat_lt
    omega
  match bs, h with
  | [], _ => decide
  | [a], _ => exact Nat.lt_trans (hstep a 0 1 (by decide)) (by decide)
  | [a, b], _ => exact Nat.lt_trans (hstep a _ 256 (hstep b 0 1 (by decide))) (by decide)
  | [a, b, c], _ =>
    exact Nat.lt_trans (hstep a _ 65536 (hstep b _ 256 (hstep c 0 1 (by decide)))) (by decide)
  | [a, b, c, d], _ =>
    exact hstep a _ 16777216 (hstep b _ 65536 (hstep c _ 256 (hstep d 0 1 (by decide))))

theorem docOf_proper {data : Bytes} {opens : Bool} (h : Proper fp stack (.save data opens))
    {id : Nat} {item : Item D} (hdoc : docOf fp stack data = some (id, item)) :
    id < 4294967296 ∧ Made fp stack item := by
  unfold docOf at hdoc
  split at hdoc
  · cases hdoc
  · next hsize =>
    split at hdoc
    · next x rest hp =>
      cases hdoc
      refine ⟨?_, ?_⟩
      · exact word_lt_of_length (List.length_take_le 4 data)
      · rcases h with h | ⟨ep, h⟩ | ⟨x, rest', h, hmade⟩
        · exact absurd h hsize
        · rw [hp] at h
          cases h
        · rw [hp] at h
          cases h
          exact hmade
    · cases hdoc

theorem saveCfg_none {data : Bytes} {opens : Bool} (h : Proper fp stack (.save data opens))
    (hdoc : docOf fp stack data = none) (file : Option Bytes) :
    saveCfg fp stack file data opens = .ok file := by
  unfold docOf at hdoc
  split at hdoc
  · next hsize => rw [saveCfg, if_pos hsize]
  · next hsize =>
    rcases h with h | ⟨ep, h⟩ | ⟨x, rest, h, -⟩
    · exact absurd h hsize
    · rw [saveCfg, if_neg hsize, h]
      rfl
    · rw [h] at hdoc
      cases hdoc

/-! ## Loading -/

/-- What a module is sent of a document. -/
def loaded (fp : Doubles D) (e : Nat × Item D) : Sent :=
  ⟨e.1, if e.1 = 0 then EN_AO_MSG_LOAD_CCF else EN_AO_MSG_LOAD_CFG, rendered fp false 0 e.2 ++ [0]⟩

theorem scanD_decimal {n : Nat} (h : n < 4294967296) : scanD (decimal n) = some (i32 n, []) := by
  have hsigned :=
    @signed_digits _ [] (decimal_ne_nil n) (isDigit_decimal n) (fun b hb => absurd hb (by simp)) []
    (fun b hb => absurd hb List.not_mem_nil)
  rw [List.nil_append, List.append_nil, number_decimal] at hsigned
  have hmin : min n 9223372036854775807 = n := Nat.min_eq_left (by omega)
  rw [scanD, hsigned]
  change some (i32 ((min n 9223372036854775807 : ℕ) : ℤ), []) = _
  rw [hmin]

theorem u32_i32 {n : Nat} (h : n < 4294967296) : u32 (i32 n) = n := by
  unfold u32 i32 u32
  omega

theorem i32_eq_zero {n : Nat} (h : n < 4294967296) : i32 n = EN_MODULE_ID_BROADCAST ↔ n = 0 := by
  unfold i32 u32 EN_MODULE_ID_BROADCAST
  omega

theorem joinMembers_depth (depth : Nat) (entries : List (Bytes × Bytes)) :
    joinMembers false depth entries = joinMembers false 0 entries := by
  induction entries with
  | nil => rfl
  | cons e entries ih =>
    obtain ⟨name, entry⟩ := e
    rw [joinMembers, joinMembers, ih]
    rfl

mutual

/-- Without formatting a text does not depend on how deep it stands. -/
theorem rendered_depth (item : Item D) (depth : Nat) :
    rendered fp false depth item = rendered fp false 0 item := by
  match item with
  | .null => rfl
  | .bool _ => rfl
  | .number _ _ => rfl
  | .string _ => rfl
  | .array items =>
    rw [rendered, rendered, renderedItems_depth items (depth + 1),
      renderedItems_depth items (0 + 1)]
  | .object [] => rfl
  | .object (member :: members) =>
    rw [rendered, rendered, renderedMembers_depth (member :: members) (depth + 1),
      renderedMembers_depth (member :: members) (0 + 1), joinMembers_depth (depth + 1),
      joinMembers_depth (0 + 1)]
    rfl

theorem renderedItems_depth (items : List (Item D)) (depth : Nat) :
    renderedItems fp false depth items = renderedItems fp false 0 items := by
  match items with
  | [] => rfl
  | item :: items =>
    rw [renderedItems, renderedItems, rendered_depth item depth, renderedItems_depth items depth]

theorem renderedMembers_depth (members : List (Bytes × Item D)) (depth : Nat) :
    renderedMembers fp false depth members = renderedMembers fp false 0 members := by
  match members with
  | [] => rfl
  | (name, item) :: members =>
    rw [renderedMembers, renderedMembers, rendered_depth item depth,
      renderedMembers_depth members depth]

end

theorem mem_renderedMembers {ms : List (Bytes × Item D)} {m : Bytes × Item D} (h : m ∈ ms)
    (depth : Nat) :
    (renderedString m.1, rendered fp false depth m.2) ∈ renderedMembers fp false depth ms := by
  induction ms with
  | nil => cases h
  | cons m' ms ih =>
    obtain ⟨name, item⟩ := m'
    rw [renderedMembers]
    rcases List.mem_cons.mp h with rfl | h
    · exact List.mem_cons_self
    · exact List.mem_cons_of_mem _ (ih h)

theorem length_entry {cfg : List (Nat × Item D)} {e : Nat × Item D} (h : e ∈ cfg) :
    (rendered fp false 0 e.2).length ≤ (rendered fp false 0 (.object (members cfg))).length := by
  have hmem : (decimal e.1, e.2) ∈ members cfg := List.mem_map.mpr ⟨e, h, rfl⟩
  have hjoin := @length_joinMembers false (0 + 1) _ _ (@mem_renderedMembers D fp _ _ hmem (0 + 1))
  cases hcons : members cfg with
  | nil =>
    rw [hcons] at hmem
    cases hmem
  | cons m ms =>
    rw [hcons] at hjoin
    rw [rendered_depth e.2 (0 + 1)] at hjoin
    rw [rendered]
    simp only [List.length_cons, List.length_append] at hjoin ⊢
    omega

/-- The loop over the members of the file sends each module its document, when that is an array or
an object. -/
theorem loads_members (hfp : fp.Exact) {cfg : List (Nat × Item D)}
    (hid : ∀ e ∈ cfg, e.1 < 4294967296) (hmade : ∀ e ∈ cfg, Made fp stack e.2)
    (hlen : ∀ e ∈ cfg, (rendered fp false 0 e.2).length < 536870912) (n_module_id : Int) :
    loads fp stack n_module_id ((members cfg).map fun m => (some m.1, m.2)) =
      .ok ((cfg.filter fun e => isComposite e.2).map (loaded fp)) := by
  induction cfg generalizing n_module_id with
  | nil => rfl
  | cons e cfg ih =>
    have hrest := fun n => ih (fun e he => hid e (List.mem_cons_of_mem _ he))
      (fun e he => hmade e (List.mem_cons_of_mem _ he))
        (fun e he => hlen e (List.mem_cons_of_mem _ he)) n
    have he := hid e List.mem_cons_self
    have hcons : (members (e :: cfg)).map (fun m => (some m.1, m.2)) =
        (some (decimal e.1), e.2) :: (members cfg).map (fun m => (some m.1, m.2)) := rfl
    rw [hcons, loads]
    cases hcomposite : isComposite e.2 with
    | false =>
      have hfilter : (e :: cfg).filter (fun e => isComposite e.2) = cfg.filter fun e =>
        isComposite e.2 :=
        List.filter_cons_of_neg (by rw [hcomposite]; decide)
      rw [if_neg (by decide), hrest, hfilter]
    | true =>
      have hfilter : (e :: cfg).filter (fun e => isComposite e.2) = e :: cfg.filter fun e =>
        isComposite e.2 :=
        List.filter_cons_of_pos hcomposite
      have hprint : cJSON_PrintUnformatted fp stack e.2 = .ok (some (rendered fp false 0 e.2)) :=
        printTop_plain hfp e.2 (hmade e List.mem_cons_self).1 (hmade e List.mem_cons_self).2.le
          (hlen e List.mem_cons_self)
      rw [if_pos rfl, hfilter, List.map_cons]
      simp only [nonNull, hprint, cstr_of_notMem (zero_notMem_decimal e.1), scanD_decimal he, bind,
        Except.bind, Option.map_some, Option.getD_some, hrest, u32_i32 he, i32_eq_zero he]
      rfl

theorem startLoad_eq (hfp : fp.Exact) {file : Option Bytes} {cfg : List (Nat × Item D)}
    (h : Contents fp stack file cfg) (hid : ∀ e ∈ cfg, e.1 < 4294967296)
    (hmade : ∀ e ∈ cfg, Made fp stack e.2)
    (hlen : (rendered fp false 0 (.object (members cfg))).length < 536870912) :
    startLoad fp stack file = .ok ((cfg.filter fun e => isComposite e.2).map (loaded fp)) := by
  cases h with
  | absent => rfl
  | unparsed h =>
    simp only [startLoad, getConfigBuf, Option.map_some, h]
    rfl
  | object h =>
    simp only [startLoad, getConfigBuf, Option.map_some, parsed_taken h]
    exact loads_members hfp hid hmade (fun e he => Nat.lt_of_le_of_lt (length_entry he) hlen) 0

/-! ## Runs -/

/-- The map behind a message. -/
def saved (fp : Doubles D) (stack : Nat) (m : Nat → Option (Item D)) (e : Event) :
    Nat → Option (Item D) :=
  match savedBy fp stack e with
  | none => m
  | some (id, item) => Function.update m id (some item)

/-- A message that is proper never goes wrong, and the file holds the map behind it. -/
theorem handle_holds (hfp : fp.Exact) {file : Option Bytes} {m : Nat → Option (Item D)}
    (h : Holds fp stack file m) {e : Event} (hproper : Proper fp stack e)
    (hfits : Fits fp stack file e) :
    ∃ file' os, handle fp stack file e = .ok (file', os) ∧
      Holds fp stack file' (saved fp stack m e) := by
  obtain ⟨cfg, hcontents, hentries⟩ := h
  have hlen := hfits cfg hcontents
  cases e with
  | start =>
    have hload := startLoad_eq hfp hcontents hentries.hid hentries.hmade hlen
    exact ⟨file, _, by rw [handle, hload]; rfl, cfg, hcontents, hentries⟩
  | save data opens =>
    cases hdoc : docOf fp stack data with
    | none =>
      have hsaved : saved fp stack m (.save data opens) = m := by
        cases opens <;> simp [saved, savedBy, hdoc]
      rw [hsaved]
      refine ⟨file, [], ?_, cfg, hcontents, hentries⟩
      rw [handle, saveCfg_none hproper hdoc]
      rfl
    | some doc =>
      obtain ⟨id, item⟩ := doc
      obtain ⟨hid, hitem⟩ := docOf_proper hproper hdoc
      simp only [hdoc] at hlen
      have hnew := entries_stored hentries hid hitem
      have hsave := saveCfg_eq hfp hcontents hentries.hmade hdoc hitem hlen opens
      refine ⟨_, [], by rw [handle, hsave]; rfl, ?_⟩
      cases opens
      · exact ⟨cfg, hcontents, hentries⟩
      · have hsaved : saved fp stack m (.save data true) = Function.update m id (some item) := by
          simp [saved, savedBy, hdoc]
        rw [hsaved]
        exact ⟨_, (printed_members hfp (stored_ne_nil cfg (id, item)) hnew.hmade hlen).2, hnew⟩

theorem latest_cons (m : Nat → Option (Item D)) (e : Event) (os : List Sent)
    (es : List (Event × List Sent)) :
    latest fp stack m ((e, os) :: es) = saved fp stack (latest fp stack m es) e := rfl

theorem run_holds (hfp : fp.Exact) {file s : Option Bytes} {m : Nat → Option (Item D)}
    (h : Holds fp stack file m) {es : List (Event × List Sent)}
    (hrun : Run (handle fp stack) (fun _ s e => Proper fp stack e ∧ Fits fp stack s e) file es s) :
    Holds fp stack s (latest fp stack m es) := by
  refine @Run.invariant _ _ _ _ _ _ _ (fun es s => Holds fp stack s (latest fp stack m es)) h ?_ _ _
    hrun
  intro es s e s' os hholds hok hstep
  obtain ⟨file', os', hhandle, hholds'⟩ := handle_holds hfp hholds hok.1 hok.2
  rw [hstep] at hhandle
  cases hhandle
  rw [latest_cons]
  exact hholds'

theorem filter_key {cfg : List (Nat × Item D)} (h : (cfg.map Prod.fst).Nodup) {e : Nat × Item D}
    (he : e ∈ cfg) :
    (cfg.filter fun x => x.1 = e.1) = [e] := by
  induction cfg with
  | nil => cases he
  | cons x cfg ih =>
    rw [List.map_cons, List.nodup_cons] at h
    rcases List.mem_cons.mp he with rfl | hmem
    · rw [List.filter_cons_of_pos (by simp)]
      refine congrArg (e :: ·) (List.filter_eq_nil_iff.mpr fun y hy => ?_)
      simp only [decide_eq_true_eq]
      intro hkey
      exact h.1 (hkey ▸ List.mem_map.mpr ⟨y, hy, rfl⟩)
    · have hne : x.1 ≠ e.1 := fun hkey => h.1 (hkey ▸ List.mem_map.mpr ⟨e, hmem, rfl⟩)
      rw [List.filter_cons_of_neg (by simpa using hne), ih h.2 hmem]

/-- After any run of saves and loads, loading sends each module the document that was last saved for
it, or that the file had for it at first, once and in a text that gives that document. Other modules
are sent nothing, and neither is one whose last document is no array and no object. -/
theorem each_module_is_sent_what_was_last_saved_for_it (hfp : fp.Exact) {file s : Option Bytes}
    {m : Nat → Option (Item D)} (hstart : Holds fp stack file m) {es : List (Event × List Sent)}
    (hrun : Run (handle fp stack) (fun _ s e => Proper fp stack e ∧ Fits fp stack s e) file es s)
    (hfits : Fits fp stack s .start) :
    ∃ os, handle fp stack s .start = .ok (s, os) ∧ ∀ id,
      (∀ item, latest fp stack m es id = some item → isComposite item = true → ∃ sent,
        (os.filter fun o => o.un_rmi = id) = [sent] ∧
          cJSON_Parse fp stack sent.data = .taken item [0] ∧
          sent.un_msg_code = if id = 0 then EN_AO_MSG_LOAD_CCF else EN_AO_MSG_LOAD_CFG) ∧
      ((∀ item, latest fp stack m es id = some item → isComposite item = false) →
        (os.filter fun o => o.un_rmi = id) = []) := by
  obtain ⟨cfg, hcontents, hentries⟩ := run_holds hfp hstart hrun
  have hlen := hfits cfg hcontents
  have hload := startLoad_eq hfp hcontents hentries.hid hentries.hmade hlen
  refine ⟨_, by rw [handle, hload]; rfl, fun id => ?_⟩
  have hfilter : (((cfg.filter fun e => isComposite e.2).map (loaded fp)).filter fun o =>
    o.un_rmi = id) =
      ((cfg.filter fun x => x.1 = id).filter fun e => isComposite e.2).map (loaded fp) := by
    rw [List.filter_map, List.filter_comm]
    rfl
  rw [hfilter]
  constructor
  · intro item hitem hcomposite
    have hmem := (hentries.hmem id item).mpr hitem
    refine ⟨loaded fp (id, item), ?_, ?_, rfl⟩
    · have hone : [(id, item)].filter (fun e => isComposite e.2) = [(id, item)] :=
        List.filter_cons_of_pos hcomposite
      rw [filter_key hentries.hdistinct hmem, hone]
      rfl
    · have hmade := hentries.hmade _ hmem
      exact cJSON_Parse_rendered hfp item hmade.1 hmade.2.le []
  · intro hnone
    refine List.map_eq_nil_iff.mpr (List.filter_eq_nil_iff.mpr ?_)
    rintro ⟨k, x⟩ hx
    obtain ⟨hmem, hk⟩ := List.mem_filter.mp hx
    rw [decide_eq_true_eq] at hk
    subst hk
    rw [hnone x ((hentries.hmem _ x).mp hmem)]
    decide

end

/-! ## A run -/

/-- A document for the module 5. -/
def docFive : Item Int := .object [(text "n", .number 7 7)]

def saveFive : Bytes := le32 5 ++ (rendered wholeDoubles true 0 docFive ++ [0])

theorem made_docFive : Made wholeDoubles 2 docFive :=
  ⟨⟨by decide, ⟨⟨by decide, by decide⟩, rfl⟩, trivial⟩, by decide⟩

theorem parse_saveFive : cJSON_Parse wholeDoubles 2 (saveFive.drop 4) = .taken docFive [0] :=
  cJSON_Parse_rendered exact_wholeDoubles docFive made_docFive.1 made_docFive.2.le []

theorem docOf_saveFive : docOf wholeDoubles 2 saveFive = some (5, docFive) := by
  have hsize : ¬ saveFive.length < EN_AO_MSG_SAVE_CFG_SIZE := by
    simp [saveFive, EN_AO_MSG_SAVE_CFG_SIZE]
  unfold docOf
  rw [if_neg hsize, parse_saveFive]
  rfl

/-- The members of the file behind it. -/
def cfgFive : List (Nat × Item Int) := stored [] (some (5, docFive))

theorem length_cfgFive : (rendered wholeDoubles false 0 (.object (members cfgFive))).length <
    536870912 := by
  decide +kernel

theorem five_is_sent_what_was_saved_for_it :
    ∃ os, handle wholeDoubles 2 (some (rendered wholeDoubles false 0 (.object (members cfgFive))))
      .start =
        .ok (some (rendered wholeDoubles false 0 (.object (members cfgFive))), os) ∧ ∀ id,
      (∀ item, latest wholeDoubles 2 (fun _ => none) [(.save saveFive true, [])] id = some item →
        isComposite item = true → ∃ sent, (os.filter fun o => o.un_rmi = id) = [sent] ∧
          cJSON_Parse wholeDoubles 2 sent.data = .taken item [0] ∧
          sent.un_msg_code = if id = 0 then EN_AO_MSG_LOAD_CCF else EN_AO_MSG_LOAD_CFG) ∧
      ((∀ item, latest wholeDoubles 2 (fun _ => none) [(.save saveFive true, [])] id = some item →
        isComposite item = false) → (os.filter fun o => o.un_rmi = id) = []) := by
  have hstart : Holds wholeDoubles 2 none (fun _ => none) :=
    ⟨[], .absent, List.nodup_nil, by simp, by simp, by simp⟩
  have hmade : ∀ e ∈ cfgFive, Made wholeDoubles 2 e.2 := fun e he => by
    rw [List.mem_singleton.mp he]
    exact made_docFive
  have hstep : handle wholeDoubles 2 none (.save saveFive true) =
      .ok (some (rendered wholeDoubles false 0 (.object (members cfgFive))), []) := by
    rw [handle,
      saveCfg_eq exact_wholeDoubles .absent (by simp) docOf_saveFive made_docFive length_cfgFive]
    rfl
  have hfits : Fits wholeDoubles 2 none (.save saveFive true) := by
    intro cfg hcfg
    cases hcfg
    simp only [docOf_saveFive]
    exact length_cfgFive
  have hparse :=
    @cJSON_Parse_rendered Int wholeDoubles false exact_wholeDoubles _ (plain_members hmade) 2
    (nesting_members (List.cons_ne_nil _ _) hmade) []
  refine each_module_is_sent_what_was_last_saved_for_it exact_wholeDoubles hstart
    (.next .start ⟨Or.inr (Or.inr ⟨_, _, parse_saveFive, made_docFive⟩), hfits⟩ hstep) ?_
  intro cfg hcfg
  have hsame : members cfg = members cfgFive := by
    cases hcfg with
    | unparsed h =>
      rw [hparse] at h
      cases h
    | object h =>
      rw [hparse, Parsed.taken.injEq, Item.object.injEq] at h
      exact h.1.symm
  show (rendered wholeDoubles false 0 (.object (members cfg))).length < _
  rw [hsame]
  exact length_cfgFive

end util.ao_cfg_module

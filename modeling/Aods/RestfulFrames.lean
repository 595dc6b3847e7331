-- The connection of the REST service: `sendAndWaitRsp` of its client, `handle` and `__rsp` of the
-- service. A frame is five words, a key and the ciphertext, and both sides read it in the pieces
-- that `recv` gives them. What `Fernet` and `json` do comes from outside. The law says that however
-- the pieces are cut, a document comes over as it was sent.
import Aods.Crc32
import Aods.Json

open machine
open util.json

namespace py.restful_frames

variable {Doc Draw : Type}

/-! ## The frame -/

/-- `Fernet` with what it draws, and `json` with `encode` and `decode`. An exception is `none`. -/
structure Outside (Doc Draw : Type) where
  generate_key : Draw → Bytes
  encrypt : Bytes → Draw → Bytes → Bytes
  decrypt : Bytes → Bytes → Option Bytes
  dumps : Doc → Bytes
  loads : Bytes → Option Doc
  items : Doc → Option (List (Bytes × Doc))

/-- `struct.pack("<5I", ..)`. A number that is too large raises an exception. -/
def pack (ns : List Nat) : Option Bytes :=
  if ∀ n ∈ ns, n < 4294967296 then some (ns.flatMap (fun n : Nat => le32 n)) else none

/-- A word of `struct.unpack("<5I", ..)`. -/
def unpack (data : Bytes) (i : Nat) : Nat := word ((data.drop (4 * i)).take 4)

/-- What a side sends for a document, with its own seeds of the checksums. -/
def sent (x : Outside Doc Draw) (enSeed seed : Nat) (keyDraw draw : Draw) (data : Doc) :
    Option Bytes :=
  let buf := x.dumps data
  let hash := crc.update seed buf
  let enKey := x.generate_key keyDraw
  let enBuf := x.encrypt enKey draw buf
  let enHash := crc.update enSeed enBuf
  (pack [enBuf.length, 1, enHash, hash, enKey.length]).map (fun head => head ++ (enKey ++ enBuf))

/-! ## The reader -/

/-- `recv`: the first piece, or as much of it as it was asked for. Behind the last piece it is
empty. -/
def recv (n : Nat) : List Bytes → Bytes × List Bytes
  | [] => ([], [])
  | p :: ps => (p.take n, if p.length ≤ n then ps else p.drop n :: ps)

/-- The loop of `__Read`, and the pieces behind it. -/
def read (length : Nat) (data : Bytes) (ps : List Bytes) : Option Bytes × List Bytes :=
  if data.length < length then
    let tempdata := (recv (length - data.length) ps).1
    let qs := (recv (length - data.length) ps).2
    if tempdata.length < 1 then (none, qs) else read length (data ++ tempdata) qs
  else (some data, ps)
termination_by length - data.length
decreasing_by
  rename_i hmore htemp
  have hsome : ¬ (recv (length - data.length) ps).1.length < 1 := htemp
  rw [List.length_append]
  omega

/-- The document that a side gets out of the pieces. -/
def received (x : Outside Doc Draw) (enSeed seed : Nat) (ps : List Bytes) : Option Doc :=
  match read 20 [] ps with
  | (none, _) => none
  | (some head, ps) =>
    let length := unpack head 0
    let enHash := unpack head 2
    let hash := unpack head 3
    let leEnKey := unpack head 4
    match read (length + leEnKey) [] ps with
    | (none, _) => none
    | (some data, _) =>
      let enKey := data.take leEnKey
      let data := data.drop leEnKey
      if enHash ≠ crc.update enSeed data then none
      else
        match x.decrypt enKey data with
        | none => none
        | some deData => if hash ≠ crc.update seed deData then none else x.loads deData

/-! ## The two sides -/

/-- What `sendAndWaitRsp` sends. -/
def request (x : Outside Doc Draw) (keyDraw draw : Draw) (data : Doc) : Option Bytes :=
  sent x 0x4f 0x31 keyDraw draw data

/-- What it returns for the pieces that come back. -/
def sendAndWaitRsp (x : Outside Doc Draw) (ps : List Bytes) : Option Doc := received x 0x32 0x50 ps

/-- `__rsp`. -/
def rsp (x : Outside Doc Draw) (keyDraw draw : Draw) (data : Doc) : Option Bytes :=
  sent x 0x32 0x50 keyDraw draw data

/-- The handlers of the commands. -/
inductive Command where
  | login
  | query_pms
  | query_mi
  | query_update_detail
  | query_server
  | update_server
  | delete_servers
  | publish
  deriving DecidableEq

def commandOf (k : Bytes) : Option Command :=
  if k = text "login" then some .login
  else if k = text "query_pms" then some .query_pms
  else if k = text "query_mi" then some .query_mi
  else if k = text "query_update_detail" then some .query_update_detail
  else if k = text "query_server" then some .query_server
  else if k = text "update_server" then some .update_server
  else if k = text "delete_servers" then some .delete_servers
  else if k = text "publish" then some .publish
  else none

/-- The loop of `handle`: the handlers it calls, with their values. A document that is no object
raises an exception in front of the first. -/
def dispatch (x : Outside Doc Draw) (jData : Doc) : List (Command × Doc) :=
  match x.items jData with
  | none => []
  | some items => items.filterMap (fun item => (commandOf item.1).map (fun c => (c, item.2)))

/-- `handle`, up to what the handlers do. -/
def handle (x : Outside Doc Draw) (ps : List Bytes) : List (Command × Doc) :=
  match received x 0x4f 0x31 ps with
  | none => []
  | some jData => dispatch x jData

/-! ## Pieces -/

/-- `recv` takes the next bytes off the stream, however it is cut. -/
theorem recv_pieces {a b : Bytes} {ps : List Bytes} (hps : ∀ p ∈ ps, p ≠ [])
    (hflat : ps.flatten = a ++ b) (ha : a ≠ []) :
    ∃ t a', (recv a.length ps).1 = t ∧ t ≠ [] ∧ a = t ++ a' ∧
      (recv a.length ps).2.flatten = a' ++ b ∧
      ∀ q ∈ (recv a.length ps).2, q ≠ [] := by
  cases ps with
  | nil =>
    have hnil := List.append_eq_nil_iff.mp hflat.symm
    exact absurd hnil.1 ha
  | cons p ps =>
    have hp := hps p List.mem_cons_self
    have hrest : ∀ q ∈ ps, q ≠ [] := fun q hq => hps q (List.mem_cons_of_mem p hq)
    rw [List.flatten_cons] at hflat
    unfold recv
    dsimp only
    by_cases hlen : p.length ≤ a.length
    · rw [if_pos hlen, List.take_of_length_le hlen]
      have hbegin : p <+: a :=
        List.prefix_of_prefix_length_le ⟨ps.flatten, hflat⟩ (List.prefix_append a b) hlen
      obtain ⟨a', rfl⟩ := hbegin
      rw [List.append_assoc, List.append_cancel_left_eq] at hflat
      exact ⟨p, a', rfl, hp, rfl, hflat, hrest⟩
    · rw [if_neg hlen]
      have hbegin : a <+: p :=
        List.prefix_of_prefix_length_le (List.prefix_append a b) ⟨ps.flatten, hflat⟩ (by omega)
      obtain ⟨p', rfl⟩ := hbegin
      rw [List.append_assoc, List.append_cancel_left_eq] at hflat
      rw [List.length_append] at hlen
      have hp' : p' ≠ [] := by
        intro hnil
        rw [hnil] at hlen
        simp at hlen
      refine ⟨a, [], ?_, ha, by simp, ?_, ?_⟩
      · exact List.take_left
      · rw [List.drop_left]
        exact hflat
      · rw [List.drop_left]
        intro q hq
        rcases List.mem_cons.mp hq with rfl | hq
        · exact hp'
        · exact hrest q hq

/-- `__Read` takes as many bytes as it was asked for. -/
theorem read_pieces (data : Bytes) {a b : Bytes} {ps : List Bytes} (hps : ∀ p ∈ ps, p ≠ [])
    (hflat : ps.flatten = a ++ b) :
    ∃ qs, read (data.length + a.length) data ps = (some (data ++ a), qs) ∧ qs.flatten = b ∧
      ∀ q ∈ qs, q ≠ [] := by
  -- by the number of bytes that are to come: each turn takes one at least
  induction hn : a.length using Nat.strong_induction_on generalizing a data ps with
  | _ n ih =>
    rw [read]
    by_cases ha : a = []
    · subst ha
      rw [List.length_nil] at hn
      rw [if_neg (by omega)]
      exact ⟨ps, by rw [List.append_nil], hflat, hps⟩
    · have hpos : 0 < a.length := List.length_pos_iff.mpr ha
      obtain ⟨t, a', ht, htne, rfl, hflat', hps'⟩ := recv_pieces hps hflat ha
      have htlen : 0 < t.length := List.length_pos_iff.mpr htne
      rw [List.length_append] at hn
      have hneed : data.length + n - data.length = (t ++ a').length := by
        rw [List.length_append]
        omega
      rw [if_pos (by omega), hneed]
      dsimp only
      rw [ht, if_neg (by omega)]
      obtain ⟨qs, hread, hrest⟩ := ih a'.length (by omega) (data ++ t) hps' hflat' rfl
      have htotal : data.length + n = (data ++ t).length + a'.length := by
        rw [List.length_append]
        omega
      rw [htotal, hread, List.append_assoc]
      exact ⟨qs, rfl, hrest⟩

/-! ## The header -/

theorem unpack_zero {n : Nat} (h : n < 4294967296) (t : Bytes) : unpack (le32 n ++ t) 0 = n := by
  have hword : (le32 n ++ t).take 4 = le32 n := rfl
  unfold unpack
  rw [Nat.mul_zero, List.drop_zero, hword, word_le32, u32_of_lt h]

theorem unpack_succ (n : Int) (t : Bytes) (i : Nat) :
    unpack (le32 n ++ t) (i + 1) = unpack t i := by
  have hdrop : (le32 n ++ t).drop (4 * (i + 1)) = t.drop (4 * i) := by
    rw [Nat.mul_add, Nat.add_comm, ← List.drop_drop]
    rfl
  unfold unpack
  rw [hdrop]

theorem unpack_pack {a b c d e : Nat} {head : Bytes} (h : pack [a, b, c, d, e] = some head) :
    head.length = 20 ∧ unpack head 0 = a ∧ unpack head 2 = c ∧ unpack head 3 = d ∧
      unpack head 4 = e := by
  unfold pack at h
  split at h
  · rename_i hall
    cases h
    have ha := hall a (by simp)
    have hc := hall c (by simp)
    have hd := hall d (by simp)
    have he := hall e (by simp)
    simp only [List.flatMap_cons, List.flatMap_nil]
    refine ⟨rfl, ?_, ?_, ?_, ?_⟩
    · rw [unpack_zero ha]
    · rw [unpack_succ, unpack_succ, unpack_zero hc]
    · rw [unpack_succ, unpack_succ, unpack_succ, unpack_zero hd]
    · rw [unpack_succ, unpack_succ, unpack_succ, unpack_succ, unpack_zero he]
  · cases h

/-! ## A document comes over -/

/-- For what a side draws, `decrypt` undoes `encrypt` and `loads` undoes `dumps`, and the lengths
fit their words. -/
structure Undone (x : Outside Doc Draw) (keyDraw draw : Draw) (data : Doc) : Prop where
  loads_dumps : x.loads (x.dumps data) = some data
  decrypt_encrypt : x.decrypt (x.generate_key keyDraw)
    (x.encrypt (x.generate_key keyDraw) draw (x.dumps data)) =
    some (x.dumps data)
  key_lt : (x.generate_key keyDraw).length < 4294967296
  buf_lt : (x.encrypt (x.generate_key keyDraw) draw (x.dumps data)).length < 4294967296

variable {x : Outside Doc Draw} {keyDraw draw : Draw} {data : Doc}

/-- A side that counts on it sends a header, the key and the ciphertext. -/
theorem sent_some {enSeed seed : Nat} (h : Undone x keyDraw draw data) (hen : enSeed < 4294967296)
    (hseed : seed < 4294967296) :
    ∃ head, sent x enSeed seed keyDraw draw data =
        some (head ++
          (x.generate_key keyDraw ++ x.encrypt (x.generate_key keyDraw) draw (x.dumps data))) ∧
      pack [(x.encrypt (x.generate_key keyDraw) draw (x.dumps data)).length, 1,
        crc.update enSeed (x.encrypt (x.generate_key keyDraw) draw (x.dumps data)),
          crc.update seed (x.dumps data),
        (x.generate_key keyDraw).length] = some head := by
  have hpack : ∃ head, pack [(x.encrypt (x.generate_key keyDraw) draw (x.dumps data)).length, 1,
      crc.update enSeed (x.encrypt (x.generate_key keyDraw) draw (x.dumps data)),
        crc.update seed (x.dumps data),
      (x.generate_key keyDraw).length] = some head := by
    unfold pack
    rw [if_pos]
    · exact ⟨_, rfl⟩
    · simp only [List.forall_mem_cons]
      exact ⟨h.buf_lt, by decide, crc.update_lt _ hen, crc.update_lt _ hseed, h.key_lt, by simp⟩
  obtain ⟨head, hhead⟩ := hpack
  refine ⟨head, ?_, hhead⟩
  unfold sent
  dsimp only
  rw [hhead]
  rfl

/-- However the bytes are cut, and whatever is behind them, the other side gets the document. -/
theorem received_sent {enSeed seed : Nat} (h : Undone x keyDraw draw data)
    (hen : enSeed < 4294967296) (hseed : seed < 4294967296) :
    ∃ bytes, sent x enSeed seed keyDraw draw data = some bytes ∧
      ∀ ps rest, (∀ p ∈ ps, p ≠ []) → ps.flatten = bytes ++ rest →
        received x enSeed seed ps = some data := by
  obtain ⟨head, hsent, hhead⟩ := sent_some h hen hseed
  obtain ⟨hlen, hlength, henHash, hhash, hleEnKey⟩ := unpack_pack hhead
  refine ⟨_, hsent, ?_⟩
  intro ps rest hps hflat
  rw [List.append_assoc] at hflat
  obtain ⟨qs, hread, hqs, hne⟩ := read_pieces [] hps hflat
  rw [List.length_nil, Nat.zero_add, hlen] at hread
  obtain ⟨rs, hread', _, _⟩ := read_pieces [] hne hqs
  have hboth : ([] : Bytes).length + (x.generate_key keyDraw ++
      x.encrypt (x.generate_key keyDraw) draw (x.dumps data)).length =
      (x.encrypt (x.generate_key keyDraw) draw (x.dumps data)).length +
          (x.generate_key keyDraw).length := by
    rw [List.length_nil, List.length_append]
    omega
  rw [hboth] at hread'
  unfold received
  rw [hread]
  dsimp only [List.nil_append]
  rw [hlength, hleEnKey, henHash, hhash, hread']
  dsimp only [List.nil_append]
  rw [List.drop_left, List.take_left, if_neg (not_not.mpr rfl), h.decrypt_encrypt]
  dsimp only
  rw [if_neg (not_not.mpr rfl), h.loads_dumps]

/-- A request is dispatched as it was sent, and a response comes back as it was sent, however the
two streams are cut. -/
theorem documents_come_over_however_they_are_cut (x : Outside Doc Draw)
    {keyDraw draw keyDraw' draw' : Draw} {jData data : Doc} (hrequest : Undone x keyDraw draw jData)
    (hresponse : Undone x keyDraw' draw' data) :
    (∃ bytes, request x keyDraw draw jData = some bytes ∧
      ∀ ps rest, (∀ p ∈ ps, p ≠ []) → ps.flatten = bytes ++ rest → handle x ps = dispatch x jData) ∧
    ∃ bytes, rsp x keyDraw' draw' data = some bytes ∧
      ∀ ps rest, (∀ p ∈ ps, p ≠ []) → ps.flatten = bytes ++ rest →
        sendAndWaitRsp x ps = some data := by
  obtain ⟨bytes, hsent, hreceived⟩ :=
    @received_sent _ _ x _ _ _ 0x4f 0x31 hrequest (by decide) (by decide)
  refine ⟨⟨bytes, hsent, ?_⟩, received_sent hresponse (by decide) (by decide)⟩
  intro ps rest hps hflat
  unfold handle
  rw [hreceived ps rest hps hflat]

/-! ## An exchange -/

/-- The text of a key. -/
def aKey : Bytes :=
  [65, 65, 69, 67, 65, 119, 81, 70, 66, 103, 99, 73, 67, 81, 111, 76, 68, 65, 48, 79, 68, 120, 65,
    82, 69, 104, 77, 85, 70, 82, 89, 88, 71, 66, 107, 97, 71, 120, 119, 100, 72, 104, 56, 61]

/-- A request without a cookie, and what it is answered. -/
def aRequest : CJson := obj [("query_pms", obj [])]

def aResponse : CJson :=
  obj [("query_pms_result", obj [("result", .string (text "failed for unathen"))])]

def requestText : Bytes := text "\x7b\"query_pms\": \x7b\x7d\x7d"

def responseText : Bytes :=
  text "\x7b\"query_pms_result\": \x7b\"result\": \"failed for unathen\"\x7d\x7d"

/-- The tokens of the key for the two texts, of one time and one vector. -/
def requestToken : Bytes :=
  [103, 65, 65, 65, 65, 65, 65, 100, 119, 74, 54, 119, 65, 65, 69, 67, 65, 119, 81, 70, 66, 103, 99,
    73, 67, 81, 111, 76, 68, 65, 48, 79, 68, 120, 78, 109, 54, 84, 69, 56, 122, 100, 108, 106, 70,
    104, 75, 50, 65, 90, 71, 50, 89, 88, 117, 109, 52, 101, 100, 111, 49, 48, 56, 108, 48, 106, 112,
    57, 73, 77, 98, 68, 67, 67, 86, 88, 88, 108, 79, 106, 72, 99, 65, 122, 101, 119, 111, 107, 67,
    105, 112, 81, 106, 106, 83, 120, 48, 100, 109, 53, 108, 113, 106, 55, 78, 97, 103, 78, 112, 66,
    111, 52, 122, 97, 49, 106, 110, 48, 85, 61]

def responseToken : Bytes :=
  [103, 65, 65, 65, 65, 65, 65, 100, 119, 74, 54, 119, 65, 65, 69, 67, 65, 119, 81, 70, 66, 103, 99,
    73, 67, 81, 111, 76, 68, 65, 48, 79, 68, 57, 72, 118, 114, 115, 87, 72, 74, 101, 122, 88, 111,
    121, 84, 65, 105, 55, 98, 106, 68, 98, 97, 50, 51, 51, 120, 117, 74, 72, 72, 115, 97, 88, 65,
    68, 82, 65, 77, 67, 55, 66, 99, 120, 71, 114, 114, 72, 82, 88, 68, 106, 105, 88, 114, 100, 108,
    67, 57, 78, 73, 67, 72, 52, 114, 55, 122, 114, 109, 45, 88, 79, 118, 106, 121, 83, 99, 88, 71,
    49, 78, 98, 70, 53, 50, 76, 101, 56, 114, 80, 65, 51, 50, 100, 83, 101, 87, 49, 70, 95, 112,
    122, 97, 122, 121, 68, 113, 83, 70, 84, 117, 50, 86, 111, 99, 48, 121, 70, 66, 45, 69, 112, 104,
    95, 108, 84, 65, 102, 106, 81, 61, 61]

/-- What `Fernet` and `json` do with them. -/
def exchange : Outside CJson Unit where
  generate_key _ := aKey
  encrypt key _ buf :=
    if key = aKey ∧ buf = requestText then requestToken else if key = aKey ∧ buf = responseText then
      responseToken else []
  decrypt key token :=
    if key = aKey ∧ token = requestToken then some requestText
    else if key = aKey ∧ token = responseToken then some responseText
    else none
  dumps data :=
    match data with
    | .object [(_, .object [])] => requestText
    | _ => responseText
  loads buf :=
    if buf = requestText then some aRequest else if buf = responseText then some aResponse else none
  items data :=
    match data with
    | .object members => some members
    | _ => none

theorem documents_come_over_without_a_cookie :
    (∃ bytes, request exchange () () aRequest = some bytes ∧
      ∀ ps rest, (∀ p ∈ ps, p ≠ []) → ps.flatten = bytes ++ rest →
        handle exchange ps = dispatch exchange aRequest) ∧
    ∃ bytes, rsp exchange () () aResponse = some bytes ∧
      ∀ ps rest, (∀ p ∈ ps, p ≠ []) → ps.flatten = bytes ++ rest →
        sendAndWaitRsp exchange ps = some aResponse := by
  have hrequest : Undone exchange () () aRequest :=
    ⟨rfl, by decide +kernel, by decide +kernel, by decide +kernel⟩
  have hresponse : Undone exchange () () aResponse :=
    ⟨rfl, by decide +kernel, by decide +kernel, by decide +kernel⟩
  exact documents_come_over_however_they_are_cut exchange hrequest hresponse

end py.restful_frames

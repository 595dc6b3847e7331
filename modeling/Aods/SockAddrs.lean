-- `CAoSockTcpChannel::GetNextAddr` and `ParseAddr`, which give `Run` an address for each connection
-- that it tries. The law says for which addresses the arrays are long enough, and that these go
-- round in order.
import Aods.Json
import Aods.Scanf

open machine
open util.json (CJson text)

namespace util.sock_addrs

/-! ## The C library -/

/-- `strlen`, of bytes that have to hold the NUL. -/
def strlen (b : Bytes) : Except Fault Nat := if 0 ∈ b then .ok (cstr b).length else .error .overrun

/-- `strcpy` into an array, with the NUL. -/
def strcpy (dst : Arr 256) (src : Bytes) : Except Fault (Arr 256) :=
  if h : 0 ∈ src ∧ (cstr src).length < 256 then
    .ok ⟨cstr src ++ 0 :: dst.1.drop ((cstr src).length + 1), by
      rw [List.length_append, List.length_cons, List.length_drop, dst.2]
      omega⟩
  else .error .overrun

/-- `sscanf` with "%d", which leaves the number as it is when the text has none. -/
def sscanfD (b : Bytes) (n : Int) : Except Fault Int :=
  if 0 ∈ b then .ok (((scanf.scanD (cstr b)).map (·.1)).getD n) else .error .overrun

/-! ## The model -/

/-- An array that is declared with `= {0}`. -/
def zeros : Arr 256 := ⟨List.replicate 256 0, List.length_replicate⟩

/-- One byte of an array set to NUL. -/
def setNul (a : Arr 256) (t : Nat) : Arr 256 := ⟨a.1.set t 0, by rw [List.length_set, a.2]⟩

/-- `strlen(szUri) - 1`, a `size_t`. -/
def scanBound (n : Nat) : Nat := (((n : Int) - 1) % 18446744073709551616).toNat

/-- The loop of `ParseAddr` from a place on, with the bytes of the array from there: where the colon
is. -/
def scanFrom (sz_uri : Bytes) : Bytes → Nat → Except Fault (Option Nat)
  | [], t => do
    let n ← strlen sz_uri
    if t < scanBound n then .error .overrun else pure none
  | b :: rest, t => do
    let n ← strlen sz_uri
    if t < scanBound n then
      if b = 58 then pure (some t) else scanFrom sz_uri rest (t + 1)
    else pure none

/-- `ParseAddr`, of the bytes of a `std::string`: what it returns, `pszAddr` and `nPort`. -/
def parseAddr (psz_uri : Bytes) (psz_addr : Arr 256) (n_port : Int) :
    Except Fault (Bool × Arr 256 × Int) := do
  let sz_uri ← strcpy zeros (psz_uri ++ [0])
  match ← scanFrom sz_uri.1 sz_uri.1 0 with
  | none => pure (false, psz_addr, n_port)
  | some t =>
    let psz_addr ← strcpy psz_addr (setNul sz_uri t).1
    let n_port ← sscanfD ((setNul sz_uri t).1.drop (t + 1)) n_port
    pure (true, psz_addr, n_port)

/-- The list, whose strings were made of C strings, and the iterator as a place in it. -/
structure CAoSockTcpChannel where
  lst_addr : List Bytes
  it_cur_addr : Nat
  texts : ∀ a ∈ lst_addr, 0 ∉ a
  place : it_cur_addr ≤ lst_addr.length

/-- `p->child` and what follows it. -/
def children : CJson → List CJson
  | .array items => items
  | .object members => members.map (·.2)
  | _ => []

def stringOf : CJson → Option Bytes
  | .string s => some (cstr s)
  | _ => none

theorem stringOf_text {j : CJson} {a : Bytes} (h : stringOf j = some a) : 0 ∉ a := by
  cases j with
  | string s =>
    cases h
    exact zero_notMem_cstr s
  | _ => cases h

/-- `Init`, up to its `Start`. -/
def init (p_json_para : CJson) : CAoSockTcpChannel where
  lst_addr := (children p_json_para).filterMap stringOf
  it_cur_addr := 0
  texts := by
    intro a ha
    obtain ⟨j, _, hj⟩ := List.mem_filterMap.mp ha
    exact stringOf_text hj
  place := Nat.zero_le _

/-- What `Run` has: the channel, `szAddr` and `nPort`. -/
structure Run where
  asc : CAoSockTcpChannel
  sz_addr : Arr 256
  n_port : Int

/-- The iterator at the end goes back to the beginning. -/
def CAoSockTcpChannel.wrap (asc : CAoSockTcpChannel) : CAoSockTcpChannel :=
  if asc.it_cur_addr = asc.lst_addr.length then
    { asc with it_cur_addr := 0, place := Nat.zero_le _ }
  else asc

/-- `GetNextAddr`, with the address that it gave to `ParseAddr`. -/
def getNextAddr (s : Run) : Except Fault (Bool × Run × Option Bytes) :=
  let asc := s.asc.wrap
  if h : asc.it_cur_addr < asc.lst_addr.length then do
    let r ← parseAddr asc.lst_addr[asc.it_cur_addr] s.sz_addr s.n_port
    pure (r.1, ⟨{ asc with it_cur_addr := asc.it_cur_addr + 1, place := h }, r.2.1, r.2.2⟩,
      some asc.lst_addr[asc.it_cur_addr])
  else pure (false, { s with asc }, none)

/-- A connection that `Run` tries: the address of the list that it is for, and what `Connect` is
given. -/
structure Attempt where
  addr : Option Bytes
  psz_addr : Bytes
  n_port : Int
  deriving DecidableEq

def reconnect (s : Run) : Except Fault (Run × Attempt) := do
  let r ← getNextAddr s
  if r.1 then pure (r.2.1, ⟨r.2.2, cstr r.2.1.sz_addr.1, r.2.1.n_port⟩)
  else do
    let sz_addr ← strcpy r.2.1.sz_addr (text "aodc.qpgame.com" ++ [0])
    pure ({ r.2.1 with sz_addr, n_port := 7050 }, ⟨r.2.2, cstr sz_addr.1, 7050⟩)

def reconnects : Nat → Run → Except Fault (Run × List Attempt)
  | 0, s => pure (s, [])
  | n + 1, s => do
    let r ← reconnect s
    let rest ← reconnects n r.1
    pure (rest.1, r.2 :: rest.2)

/-- `Run`, from the channel that `Init` leaves. -/
def start (p_json_para : CJson) : Run := ⟨init p_json_para, zeros, 0⟩

/-! ## What is asked of it -/

/-- An address that `ParseAddr` has room for. -/
def Fits (a : Bytes) : Prop := 1 ≤ a.length ∧ a.length ≤ 255

instance (a : Bytes) : Decidable (Fits a) := inferInstanceAs (Decidable (_ ∧ _))

/-- Where an address is cut: at its first colon, the last byte left out. -/
def colon (a : Bytes) : Option Nat := a.dropLast.idxOf? 58

/-- What an address of the list has `Run` connect to. It says no port when the address has a colon
and no number behind it. -/
def target (a : Option Bytes) : Bytes × Option Int :=
  match a, a.bind colon with
  | some a, some t => (a.take t, (scanf.scanD (a.drop (t + 1))).map (·.1))
  | _, _ => (text "aodc.qpgame.com", some 7050)

/-- An attempt goes where its address says. -/
def Attempt.Aims (x : Attempt) : Prop :=
  x.psz_addr = (target x.addr).1 ∧ ∀ v ∈ (target x.addr).2, x.n_port = v

variable {a buf src z : Bytes} {sz_uri : Arr 256} {t n : Nat} {s : Run}

/-! ## One address -/

theorem strlen_text (h : 0 ∉ a) (z : Bytes) : strlen (a ++ 0 :: z) = .ok a.length := by
  rw [strlen, if_pos (by simp), cstr_append h]

/-- A text with its NUL is copied just when the array is longer than the text. -/
theorem strcpy_text (h : 0 ∉ a) (hlt : a.length < 256) (dst : Arr 256) (z : Bytes) :
    ∃ b, strcpy dst (a ++ 0 :: z) = .ok b ∧ b.1 = a ++ 0 :: dst.1.drop (a.length + 1) := by
  have hcond : 0 ∈ a ++ 0 :: z ∧ (cstr (a ++ 0 :: z)).length < 256 := by
    rw [cstr_append h]
    exact ⟨by simp, hlt⟩
  refine ⟨_, dif_pos hcond, ?_⟩
  dsimp only
  rw [cstr_append h]

theorem strcpy_long (h : 256 ≤ (cstr src).length) (dst : Arr 256) :
    strcpy dst src = .error .overrun := by
  rw [strcpy, dif_neg]
  rintro ⟨_, hlt⟩
  omega

theorem scanBound_succ (h : n < 18446744073709551615) : scanBound (n + 1) = n := by
  unfold scanBound
  omega

/-- Over the bytes of the text the loop looks for a colon, and leaves out the last byte. -/
theorem scanFrom_text (hne : a ≠ []) (hn : strlen buf = .ok (t + a.length))
    (hlt : t + a.length < 256) (z : Bytes) :
    scanFrom buf (a ++ z) t = .ok ((colon a).map (· + t)) := by
  induction a generalizing t with
  | nil => exact absurd rfl hne
  | cons b a ih =>
    rw [List.length_cons] at hlt hn
    have hlt' : t + a.length < 18446744073709551615 := by omega
    rw [List.cons_append, scanFrom, hn]
    simp only [bind, Except.bind]
    rw [← Nat.add_assoc, scanBound_succ hlt']
    cases a with
    | nil =>
      rw [if_neg (by simp)]
      rfl
    | cons c a =>
      have hlen : t + ((c :: a).length + 1) = t + 1 + (c :: a).length := by omega
      have hrest := @ih (t + 1) (List.cons_ne_nil c a) (hlen ▸ hn) (by omega)
      rw [if_pos (by simp), colon, List.dropLast_cons_cons, List.idxOf?_cons]
      by_cases hb : b = 58
      · rw [if_pos hb, if_pos (by simpa using hb), Option.map_some, Nat.zero_add]
        rfl
      · rw [if_neg hb, if_neg (by simpa using hb), hrest, colon, Option.map_map]
        congr 2
        funext k
        dsimp only [Function.comp]
        omega

/-- Of an empty text the bound is the greatest `size_t`, and the loop leaves the array. -/
theorem scanFrom_empty (hn : strlen buf = .ok 0) (hz : 58 ∉ z)
    (hlt : t + z.length < 18446744073709551615) :
    scanFrom buf z t = .error .overrun := by
  have hbound : scanBound 0 = 18446744073709551615 := by rfl
  induction z generalizing t with
  | nil =>
    rw [scanFrom, hn]
    simp only [bind, Except.bind, hbound]
    rw [if_pos (by simpa using hlt)]
  | cons b z ih =>
    rw [List.length_cons] at hlt
    rw [List.mem_cons, not_or] at hz
    rw [scanFrom, hn]
    simp only [bind, Except.bind, hbound]
    rw [if_pos (by omega), if_neg (Ne.symm hz.1)]
    exact ih hz.2 (by omega)

/-- What `ParseAddr` gives for an address that it has room for. -/
def Parsed (a : Bytes) (psz_addr : Arr 256) (n_port : Int) (r : Bool × Arr 256 × Int) : Prop :=
  match colon a with
  | none => r = (false, psz_addr, n_port)
  | some t =>
    r.1 = true ∧ cstr r.2.1.1 = a.take t ∧
      r.2.2 = ((scanf.scanD (a.drop (t + 1))).map (·.1)).getD n_port

theorem colon_lt (h : colon a = some t) : t + 1 < a.length := by
  obtain ⟨hlt, _⟩ := List.idxOf?_eq_some_iff.mp h
  rw [List.length_dropLast] at hlt
  omega

/-- The NUL in the place of the colon ends the host, and the port stands behind it. -/
theorem setNul_text (h : sz_uri.1 = a ++ 0 :: z) (ht : t + 1 < a.length) :
    (setNul sz_uri t).1 = a.take t ++ 0 :: (a.drop (t + 1) ++ 0 :: z) ∧
      (setNul sz_uri t).1.drop (t + 1) = a.drop (t + 1) ++ 0 :: z := by
  have hset : (setNul sz_uri t).1 = a.take t ++ 0 :: (a.drop (t + 1) ++ 0 :: z) := by
    unfold setNul
    dsimp only
    rw [h, List.set_append_left _ _ (by omega), List.set_eq_take_append_cons_drop,
      if_pos (by omega)]
    simp
  refine ⟨hset, ?_⟩
  have hlen : (a.take t).length = t := by
    rw [List.length_take]
    omega
  rw [hset, List.drop_append, hlen, List.drop_eq_nil_of_le (by omega), Nat.add_sub_cancel_left]
  rfl

theorem parseAddr_fits (h : 0 ∉ a) (hfits : Fits a) (psz_addr : Arr 256) (n_port : Int) :
    ∃ r, parseAddr a psz_addr n_port = .ok r ∧ Parsed a psz_addr n_port r := by
  obtain ⟨hpos, hle⟩ := hfits
  obtain ⟨sz_uri, hcopy, hbytes⟩ := strcpy_text h (by omega) zeros []
  generalize zeros.1.drop (a.length + 1) = z at hbytes
  have hscan : scanFrom sz_uri.1 sz_uri.1 0 = .ok (colon a) := by
    have hlen : strlen sz_uri.1 = .ok (0 + a.length) := by rw [hbytes, strlen_text h, Nat.zero_add]
    have hloop := scanFrom_text (List.length_pos_iff.mp hpos) hlen (by omega)
    rw [hbytes] at hloop ⊢
    rw [hloop]
    simp
  unfold parseAddr Parsed
  rw [hcopy]
  simp only [bind, Except.bind, hscan]
  cases hcolon : colon a with
  | none => exact ⟨_, rfl, rfl⟩
  | some t =>
    have ht := colon_lt hcolon
    obtain ⟨hhost, hport⟩ := setNul_text hbytes ht
    have hnul : 0 ∉ a.take t := fun hmem => h (List.mem_of_mem_take hmem)
    obtain ⟨b, hb, hhost'⟩ :=
      strcpy_text hnul (by rw [List.length_take]; omega) psz_addr (a.drop (t + 1) ++ 0 :: z)
    have hscanf : sscanfD (a.drop (t + 1) ++ 0 :: z) n_port =
        .ok (((scanf.scanD (a.drop (t + 1))).map (·.1)).getD n_port) := by
      rw [sscanfD, if_pos (by simp), cstr_append (fun hmem => h (List.mem_of_mem_drop hmem))]
    refine ⟨(true, b, ((scanf.scanD (a.drop (t + 1))).map (·.1)).getD n_port), ?_, rfl, ?_, rfl⟩
    · dsimp only
      rw [hport, hscanf, hhost, hb]
      rfl
    · rw [hhost', cstr_append hnul]

theorem parseAddr_error (h : 0 ∉ a) (hfits : ¬ Fits a) (psz_addr : Arr 256) (n_port : Int) :
    parseAddr a psz_addr n_port = .error .overrun := by
  unfold parseAddr
  by_cases hlong : 256 ≤ a.length
  · rw [strcpy_long (by rw [cstr_append h]; exact hlong)]
    rfl
  · have hempty : a = [] := by
      unfold Fits at hfits
      exact List.length_eq_zero_iff.mp (by omega)
    obtain ⟨sz_uri, hcopy, hbytes⟩ := strcpy_text h (by omega) zeros []
    have hlen : strlen sz_uri.1 = .ok 0 := by
      rw [hbytes, strlen_text h, hempty]
      rfl
    have hcolon : 58 ∉ sz_uri.1 := by
      rw [hbytes, hempty]
      intro hmem
      rcases List.mem_cons.mp hmem with heq | hmem
      · cases heq
      · cases List.eq_of_mem_replicate (List.mem_of_mem_drop hmem)
    have hscan : scanFrom sz_uri.1 sz_uri.1 0 = .error .overrun :=
      scanFrom_empty hlen hcolon (by rw [sz_uri.2]; omega)
    rw [hcopy]
    simp only [bind, Except.bind, hscan]

/-! ## One connection -/

/-- The address that comes some connections on. -/
def Run.addrAt (s : Run) (k : Nat) : Option Bytes :=
  s.asc.lst_addr[(s.asc.it_cur_addr + k) % s.asc.lst_addr.length]?

theorem wrap_lst (asc : CAoSockTcpChannel) : asc.wrap.lst_addr = asc.lst_addr := by
  unfold CAoSockTcpChannel.wrap
  split
  · rfl
  · rfl

theorem wrap_it (asc : CAoSockTcpChannel) :
    asc.wrap.it_cur_addr = asc.it_cur_addr % asc.lst_addr.length := by
  unfold CAoSockTcpChannel.wrap
  split
  · rename_i heq
    rw [heq, Nat.mod_self]
  · rename_i hne
    have hlt := Nat.lt_of_le_of_ne asc.place hne
    rw [Nat.mod_eq_of_lt hlt]

/-- What a connection leaves: the next ones take the addresses that were to come behind the one that
it took. -/
structure Next (s s' : Run) (x : Attempt) : Prop where
  took : x.addr = s.addrAt 0
  turns : ∀ k, s'.addrAt k = s.addrAt (k + 1)
  aims : x.Aims

theorem addrAt_text (h : s.addrAt n = some a) : 0 ∉ a := s.asc.texts a (List.mem_of_getElem? h)

theorem addrAt_none (h : s.addrAt 0 = none) : s.asc.lst_addr = [] := by
  have hle := List.getElem?_eq_none_iff.mp h
  by_contra hne
  have hlt := Nat.mod_lt (s.asc.it_cur_addr + 0) (List.length_pos_iff.mpr hne)
  omega

theorem addrAt_next {asc' : CAoSockTcpChannel} (hlst : asc'.lst_addr = s.asc.lst_addr)
    (hit : asc'.it_cur_addr = s.asc.it_cur_addr % s.asc.lst_addr.length + 1) (sz_addr : Arr 256)
    (n_port : Int) (k : Nat) : Run.addrAt ⟨asc', sz_addr, n_port⟩ k = s.addrAt (k + 1) := by
  unfold Run.addrAt
  dsimp only
  rw [hlst, hit, Nat.add_assoc, Nat.mod_add_mod, Nat.add_comm 1 k]

theorem getNextAddr_some (h : s.addrAt 0 = some a) : ∃ asc', asc'.lst_addr = s.asc.lst_addr ∧
    asc'.it_cur_addr = s.asc.it_cur_addr % s.asc.lst_addr.length + 1 ∧
    getNextAddr s =
      (parseAddr a s.sz_addr s.n_port).map (fun r => (r.1, ⟨asc', r.2.1, r.2.2⟩, some a)) := by
  obtain ⟨hlt, heq⟩ := List.getElem?_eq_some_iff.mp h
  have hplace : s.asc.wrap.it_cur_addr < s.asc.wrap.lst_addr.length := by
    rw [wrap_it, wrap_lst]
    exact hlt
  have hget : s.asc.wrap.lst_addr[s.asc.wrap.it_cur_addr] = a := by
    rw [← heq]
    congr 1
    · exact wrap_lst s.asc
    · exact wrap_it s.asc
  refine ⟨{ s.asc.wrap with it_cur_addr := s.asc.wrap.it_cur_addr + 1, place := hplace },
    wrap_lst s.asc, ?_, ?_⟩
  · dsimp only
    rw [wrap_it]
  · unfold getNextAddr
    dsimp only
    rw [dif_pos hplace, hget]
    rfl

theorem getNextAddr_none (h : s.addrAt 0 = none) :
    getNextAddr s = .ok (false, { s with asc := s.asc.wrap }, none) := by
  have hempty : ¬ s.asc.wrap.it_cur_addr < s.asc.wrap.lst_addr.length := by
    rw [wrap_lst, addrAt_none h]
    simp
  unfold getNextAddr
  dsimp only
  rw [dif_neg hempty]
  rfl

/-- What `Run` does when it has no address. -/
theorem reconnect_default {s' : Run} {addr : Option Bytes}
    (h : getNextAddr s = .ok (false, s', addr)) :
    ∃ sz_addr, reconnect s =
      .ok ({ s' with sz_addr, n_port := 7050 }, ⟨addr, text "aodc.qpgame.com", 7050⟩) := by
  have hnul : (0 : UInt8) ∉ text "aodc.qpgame.com" := by decide
  obtain ⟨sz_addr, hcopy, hbytes⟩ := strcpy_text hnul (by decide) s'.sz_addr []
  refine ⟨sz_addr, ?_⟩
  unfold reconnect
  rw [h]
  simp only [bind, Except.bind, Bool.false_eq_true, if_false, hcopy]
  rw [hbytes, cstr_append hnul]
  rfl

theorem reconnect_none (h : s.addrAt 0 = none) :
    ∃ s' x, reconnect s = .ok (s', x) ∧ Next s s' x := by
  obtain ⟨sz_addr, hrun⟩ := reconnect_default (getNextAddr_none h)
  refine ⟨_, _, hrun, h.symm, fun k => ?_, rfl, ?_⟩
  · unfold Run.addrAt
    dsimp only
    rw [wrap_lst, addrAt_none h]
    rfl
  · rintro v ⟨⟩
    rfl

theorem reconnect_fits (h : s.addrAt 0 = some a) (hfits : Fits a) :
    ∃ s' x, reconnect s = .ok (s', x) ∧ Next s s' x := by
  obtain ⟨asc', hlst, hit, hget⟩ := getNextAddr_some h
  obtain ⟨r, hparse, hr⟩ := parseAddr_fits (addrAt_text h) hfits s.sz_addr s.n_port
  rw [hparse] at hget
  unfold Parsed at hr
  cases hcolon : colon a with
  | none =>
    rw [hcolon] at hr
    obtain rfl := hr
    obtain ⟨sz_addr, hrun⟩ := reconnect_default hget
    refine ⟨_, _, hrun, h.symm, addrAt_next hlst hit sz_addr 7050, ?_⟩
    unfold Attempt.Aims target
    dsimp only [Option.bind]
    rw [hcolon]
    simp
  | some t =>
    rw [hcolon] at hr
    obtain ⟨htrue, hhost, hport⟩ := hr
    refine ⟨⟨asc', r.2.1, r.2.2⟩, ⟨some a, cstr r.2.1.1, r.2.2⟩, ?_, h.symm,
      addrAt_next hlst hit _ _, ?_⟩
    · unfold reconnect
      rw [hget]
      simp only [bind, Except.bind, Except.map, htrue, if_true]
      rfl
    · unfold Attempt.Aims target
      dsimp only [Option.bind]
      rw [hcolon]
      dsimp only
      refine ⟨hhost, fun v hv => ?_⟩
      rw [hport, Option.mem_def.mp hv]
      rfl

theorem reconnect_error (h : s.addrAt 0 = some a) (hfits : ¬ Fits a) :
    reconnect s = .error .overrun := by
  obtain ⟨asc', _, _, hget⟩ := getNextAddr_some h
  rw [parseAddr_error (addrAt_text h) hfits] at hget
  unfold reconnect
  rw [hget]
  rfl

/-! ## One connection after another -/

theorem reconnect_ok (h : ∀ a ∈ s.addrAt 0, Fits a) :
    ∃ s' x, reconnect s = .ok (s', x) ∧ Next s s' x := by
  cases haddr : s.addrAt 0 with
  | none => exact reconnect_none haddr
  | some a => exact reconnect_fits haddr (h a haddr)

/-- When all that are to come fit, each is taken in its turn. -/
theorem reconnects_fits (h : ∀ k < n, ∀ a ∈ s.addrAt k, Fits a) :
    ∃ s' as, reconnects n s = .ok (s', as) ∧
    (∀ x ∈ as, x.Aims) ∧ as.map (·.addr) = (List.range n).map s.addrAt := by
  induction n generalizing s with
  | zero => exact ⟨s, [], rfl, by simp, rfl⟩
  | succ n ih =>
    obtain ⟨s', x, hstep, hnext⟩ := reconnect_ok (h 0 (Nat.zero_lt_succ n))
    obtain ⟨s'', as, hrest, haims, hmap⟩ := @ih s' (fun k hk a ha => by
      rw [hnext.turns] at ha
      exact h (k + 1) (Nat.succ_lt_succ hk) a ha)
    refine ⟨s'', x :: as, ?_, ?_, ?_⟩
    · simp only [reconnects, hstep, hrest, bind, Except.bind]
      rfl
    · intro y hy
      rcases List.mem_cons.mp hy with rfl | hy
      · exact hnext.aims
      · exact haims y hy
    · rw [List.map_cons, hmap, hnext.took, List.range_succ_eq_map, List.map_cons, List.map_map]
      congr 1
      exact List.map_congr_left (fun k _ => hnext.turns k)

/-- One that does not fit ends the run, in its turn at the latest. -/
theorem reconnects_error {k : Nat} (hk : k < n) (h : s.addrAt k = some a) (hfits : ¬ Fits a) :
    reconnects n s = .error .overrun := by
  induction n generalizing s k with
  | zero => omega
  | succ n ih =>
    by_cases hfirst : ∀ b ∈ s.addrAt 0, Fits b
    · obtain ⟨s', x, hstep, hnext⟩ := reconnect_ok hfirst
      cases k with
      | zero => exact absurd (hfirst a h) hfits
      | succ k =>
        have hrest := ih (Nat.lt_of_succ_lt_succ hk) (hnext.turns k ▸ h)
        simp only [reconnects, hstep, hrest, bind, Except.bind]
    · push Not at hfirst
      obtain ⟨b, hb, hbfits⟩ := hfirst
      simp only [reconnects, reconnect_error hb hbfits, bind, Except.bind]

/-- From `Init` on, connections as many as there may be run into no fault, go where their addresses
say, and take these in the order of the list and around it, just when each address that they come to
is neither empty nor longer than 255 bytes. -/
theorem addresses_go_round_just_when_each_has_room (p_json_para : CJson) (n : Nat) :
    (∃ s as, reconnects n (start p_json_para) = .ok (s, as) ∧ (∀ x ∈ as, x.Aims) ∧
      as.map (·.addr) = (List.range n).map (fun k =>
        (init p_json_para).lst_addr[k % (init p_json_para).lst_addr.length]?)) ↔
    ∀ a ∈ (init p_json_para).lst_addr.take n, Fits a := by
  have hat : (start p_json_para).addrAt = fun k =>
      (init p_json_para).lst_addr[k % (init p_json_para).lst_addr.length]? := by
    funext k
    exact congrArg (fun i => (init p_json_para).lst_addr[i % (init p_json_para).lst_addr.length]?)
      (Nat.zero_add k)
  constructor
  · rintro ⟨s, as, hrun, _⟩ a ha
    obtain ⟨k, hk, hget⟩ := List.mem_take_iff_getElem.mp ha
    by_contra hfits
    have hlt : k < (init p_json_para).lst_addr.length := by omega
    have hcomes : (start p_json_para).addrAt k = some a := by
      rw [hat]
      dsimp only
      rw [Nat.mod_eq_of_lt hlt, List.getElem?_eq_getElem hlt, hget]
    rw [reconnects_error (by omega) hcomes hfits] at hrun
    cases hrun
  · intro hfits
    rw [← hat]
    refine reconnects_fits (fun k hk a ha => hfits a ?_)
    rw [hat] at ha
    obtain ⟨hlt, hget⟩ := List.getElem?_eq_some_iff.mp ha
    have hle := Nat.mod_le k (init p_json_para).lst_addr.length
    exact List.mem_take_iff_getElem.mpr ⟨_, by omega, hget⟩

def emptyAddress : CJson := .array [.string []]

def longAddress : CJson := .array [.string (List.replicate 256 97)]

/-- The first connection for either goes past the end of the array. -/
theorem empty_and_long_addresses_lead_out_of_the_array :
    (¬ ∃ s as, reconnects 1 (start emptyAddress) = .ok (s, as)) ∧
    ¬ ∃ s as, reconnects 1 (start longAddress) = .ok (s, as) := by
  have hempty : (start emptyAddress).addrAt 0 = some [] := by rfl
  have hcstr : cstr (List.replicate 256 97) = List.replicate 256 97 :=
    cstr_of_notMem (fun h => by cases List.eq_of_mem_replicate h)
  have hlong : (start longAddress).addrAt 0 = some (List.replicate 256 97) := congrArg some hcstr
  have hfits : ¬ Fits (List.replicate 256 97) := by
    rw [Fits, List.length_replicate]
    omega
  constructor
  · rintro ⟨s, as, hrun⟩
    rw [reconnects_error Nat.zero_lt_one hempty (by decide)] at hrun
    cases hrun
  · rintro ⟨s, as, hrun⟩
    rw [reconnects_error Nat.zero_lt_one hlong hfits] at hrun
    cases hrun

end util.sock_addrs

-- The lists of addresses that ACTV and AUTH messages bring to aodc, and the list that it stores
-- with an authenticated server: which entries its loops and comparisons come to. The count of a
-- list is a byte of a message and is never checked. The law says when the entries are all in their
-- arrays.
import Aods.AodcActive
import Aods.AodcAuth
import Aods.Traced

open machine std_map traced
open util.helper util.json msg_def
open aodc.active_module (Inet peerIp ipAddrs ipTexts activeDoc onActiveFailedResult)
open aodc.auth_module
  (AuthInfo addrsDiffer authResult reportAuthenMsg locallyValid ridOf Checked authenOf)

namespace aodc.ip_lists

/-! ## The model -/

/-- An access to an entry of the list of a message, or of a stored one. -/
inductive Access where
  | message (n : Nat)
  | stored (n : Nat)
  deriving DecidableEq

def Access.entry : Access → Nat
  | .message n => n
  | .stored n => n

def Access.InBounds (x : Access) : Prop := x.entry < enMaxIpAddrNum

/-- The loop over the addresses, with `k` turns left from the one of `n`: the addresses, and the
address that the client is connected from, or 0 when it was among them. -/
def ipLoop (un_ip_addr : Bytes) : Nat → Nat → Nat → Traced Access Fault (List Nat × Nat)
  | 0, _, un_con_ip => pure ([], un_con_ip)
  | k + 1, n, un_con_ip => do
    let ip := word ((un_ip_addr.drop (4 * n)).take 4)
    emits [.message n, .message n]
    let (ips, un_con_ip) ← ipLoop un_ip_addr k (n + 1) (if un_con_ip = ip then 0 else un_con_ip)
    pure (ip :: ips, un_con_ip)

/-- `OnRecvAodsChannel`. -/
def onRecvAodsChannel (inet : Inet) (s : active_module.State) (channel data behind rands : Bytes) :
    Traced Access Fault (active_module.State × List Out) :=
  if data.length < enAodsAodcMsgSize then
    attempt ((onActiveFailedResult channel enActRltDatainv).map (fun os => (s, os)))
  else if msgCode data ≠ enAodsAodcActv then pure (s, [])
  else if data.length ≠ enAodsAodcMsgSize + enAodsAodcActivateSize then
    attempt ((onActiveFailedResult channel enActRltDatainv).map (fun os => (s, os)))
  else
    match s.map_ca.lookup channel with
    | none => attempt ((onActiveFailedResult channel enActRltDbbusy).map (fun os => (s, os)))
    | some addr => do
      let un_con_ip ← attempt (peerIp inet addr)
      if un_con_ip = 0 then
        attempt ((onActiveFailedResult channel enActRltDbbusy).map (fun os => (s, os)))
      else
        let a := AodsAodcActive.over (data.drop enAodsAodcMsgSize)
        let un_ip_addr := data.drop (enAodsAodcMsgSize + 2) ++ behind
        let (ips, un_con_ip) ← ipLoop un_ip_addr a.uc_ip_num.toNat 0 un_con_ip
        let ips := if un_con_ip ≠ 0 then ips ++ [un_con_ip] else ips
        let p_ip_obj := .array (ips.map (fun n => .string (inet.inet_ntoa n)))
        let uuid := getUuid rands
        pure (s.ask channel uuid (a.uc_res_id ++ a.uc_rd_serial),
          [.snd2kafka (activeDoc a p_ip_obj uuid)])

/-- `memcmp` of the addresses, which may look at each byte that it is asked to compare. -/
def compareAddrs (ai : AuthInfo) (a : AodsAodcAuthen) (alike_behind : Bool) :
    Traced Access Fault Bool := do
  emits
    ((List.range (ai.uc_ip_num.toNat * 4)).flatMap (fun i => [.stored (i / 4), .message (i / 4)]))
  pure (addrsDiffer ai a alike_behind)

/-- `memcpy` of a whole list. -/
def copyAddrs : Traced Access Fault Unit :=
  emits ((List.range (enMaxIpAddrNum * 4)).flatMap (fun i => [.message (i / 4), .stored (i / 4)]))

/-- The end of `OnRecvAodsMsg`. The addresses are compared only when the counts are the same. -/
def judge (s : auth_module.State) (channel : Bytes) (a : AodsAodcAuthen) (alike_behind : Bool) :
    Traced Access Fault (auth_module.State × List Out) :=
  let ai := (s.map_rc.lookup (ridOf a)).getD AuthInfo.blank
  if ai.str_channel_name.length > 0 then do
    let differ ← if ai.uc_ip_num ≠ a.uc_ip_num then pure true else compareAddrs ai a alike_behind
    if differ then pure (s, [authResult channel enAuthResultDif, .channel_free channel])
    else pure (s, [.channel_free ai.str_channel_name, .channel_free channel])
  else do
    copyAddrs
    pure (s.bind channel a, [reportAuthenMsg a.uc_act_code (ridOf a)])

/-- `OnRecvAodsMsg`. -/
def onRecvAodsMsg (s : auth_module.State) (channel data behind : Bytes) (alike_behind : Bool) :
    Traced Access Fault (auth_module.State × List Out) :=
  if msgCode (data ++ behind) ≠ enAodsAodcAuth then pure (s, [])
  else if data.length ≠ enAodsAodcAuthenSize + enAodsAodcMsgSize then
    pure (s, [.channel_free channel])
  else
    let a := AodsAodcAuthen.over (data.drop enAodsAodcMsgSize)
    if ¬ locallyValid a then pure (s, [.channel_free channel]) else judge s channel a alike_behind

/-! ## The conditions -/

def Safe {α : Type} (x : Traced Access Fault α) : Prop := Leaves Access.InBounds x

/-- The list of an ACTV message comes to the loop: the message has the size, and its channel has an
address. -/
def Loops (inet : Inet) (s : active_module.State) (channel data : Bytes) : Prop :=
  msgCode data = enAodsAodcActv ∧ data.length = enAodsAodcMsgSize + enAodsAodcActivateSize ∧
    ∃ addr ip, s.map_ca.lookup channel = some addr ∧ peerIp inet addr = .ok ip ∧ ip ≠ 0

/-- The list of an AUTH message comes to be compared: the message passes its checks, and a channel
is bound to its resource id with a list of the same count. -/
def Compares (s : auth_module.State) (data : Bytes) : Prop :=
  Checked data ∧ ∃ ai, s.map_rc.lookup (ridOf (authenOf data)) = some ai ∧
    ai.str_channel_name ≠ [] ∧
    ai.uc_ip_num = (authenOf data).uc_ip_num

/-! ## ACTV messages -/

theorem ipLoop_result (un_ip_addr : Bytes) (k n un_con_ip : Nat) :
    (ipLoop un_ip_addr k n un_con_ip).result =
      .ok ((List.range' n k).map (fun n => word ((un_ip_addr.drop (4 * n)).take 4)),
        if un_con_ip ∈ (List.range' n k).map (fun n => word ((un_ip_addr.drop (4 * n)).take 4))
        then 0 else un_con_ip) := by
  induction k generalizing n un_con_ip with
  | zero => simp [ipLoop]
  | succ k ih =>
    rw [ipLoop, result_bind, result_emits]
    simp only [Except.bind, result_bind, ih, result_pure, List.range'_succ, List.map_cons,
      List.mem_cons]
    by_cases hip : un_con_ip = word ((un_ip_addr.drop (4 * n)).take 4)
    · simp [hip]
    · simp only [hip, if_false, false_or]

/-- The turns come to the entries one after the other, twice to each. -/
theorem ipLoop_trace (un_ip_addr : Bytes) (k n un_con_ip : Nat) :
    (ipLoop un_ip_addr k n un_con_ip).trace =
      (List.range' n k).flatMap (fun n => [Access.message n, Access.message n]) := by
  induction k generalizing n un_con_ip with
  | zero => rfl
  | succ k ih =>
    rw [ipLoop, trace_bind, trace_emits, result_emits, behind_ok, trace_bind, ih, ipLoop_result,
      behind_ok, List.range'_succ, List.flatMap_cons]
    simp

theorem ipLoop_safe (un_ip_addr : Bytes) (k un_con_ip : Nat) :
    Safe (ipLoop un_ip_addr k 0 un_con_ip) ↔ k ≤ enMaxIpAddrNum := by
  unfold Safe Leaves
  rw [ipLoop_trace, ← List.range_eq_range', List.forall_mem_flatMap]
  constructor
  · intro h
    by_contra hlarge
    have hentry :=
      h enMaxIpAddrNum (List.mem_range.mpr (by omega)) (.message enMaxIpAddrNum) List.mem_cons_self
    exact absurd hentry (Nat.lt_irrefl _)
  · intro h n hn x hx
    have hlt : n < k := List.mem_range.mp hn
    have hx : x = .message n := by simpa using hx
    subst hx
    exact Nat.lt_of_lt_of_le hlt h

theorem safe_attempt {α : Type} (x : Except Fault α) : Safe (attempt x) := Leaves.attempt x

theorem safe_pure {α : Type} (a : α) : Safe (pure a : Traced Access Fault α) := Leaves.pure a

theorem safe_bind {α β : Type} {x : Traced Access Fault α} {f : α → Traced Access Fault β} {a : α}
    (h : x.result = .ok a) : Safe (x >>= f) ↔ Safe x ∧ Safe (f a) := leaves_bind_ok h

theorem safe_bind_error {α β : Type} {x : Traced Access Fault α} {f : α → Traced Access Fault β}
    {e : Fault} (h : x.result = .error e) : Safe (x >>= f) ↔ Safe x := leaves_bind_error h

theorem onRecvAodsChannel_result (inet : Inet) (s : active_module.State)
    (channel data behind rands : Bytes) :
    (onRecvAodsChannel inet s channel data behind rands).result =
      active_module.onRecvAodsChannel inet s channel data behind rands := by
  unfold onRecvAodsChannel active_module.onRecvAodsChannel
  split
  · rfl
  split
  · rfl
  split
  · rfl
  cases s.map_ca.lookup channel with
  | none => rfl
  | some addr =>
    dsimp only
    rw [result_bind, result_attempt]
    cases hip : peerIp inet addr with
    | error f => rfl
    | ok un_con_ip =>
      change Traced.result (if un_con_ip = 0 then _ else _) = if un_con_ip = 0 then _ else _
      by_cases hzero : un_con_ip = 0
      · rw [if_pos hzero, if_pos hzero]
        rfl
      · rw [if_neg hzero, if_neg hzero]
        rw [result_bind, ipLoop_result, ← List.range_eq_range']
        simp only [Except.bind, result_pure]
        unfold ipTexts ipAddrs
        split
        · rfl
        · rfl

theorem Loops.peer {inet : Inet} {s : active_module.State} {channel data addr : Bytes}
    (h : Loops inet s channel data) (haddr : s.map_ca.lookup channel = some addr) :
    ∃ ip, peerIp inet addr = .ok ip ∧ ip ≠ 0 := by
  obtain ⟨_, _, addr', ip, hsome, hip, hne⟩ := h
  rw [haddr] at hsome
  cases hsome
  exact ⟨ip, hip, hne⟩

theorem onRecvAodsChannel_safe (inet : Inet) (s : active_module.State)
    (channel data behind rands : Bytes) :
    Safe (onRecvAodsChannel inet s channel data behind rands) ↔
      (Loops inet s channel data →
        (AodsAodcActive.over (data.drop enAodsAodcMsgSize)).uc_ip_num.toNat ≤ enMaxIpAddrNum) := by
  unfold onRecvAodsChannel
  by_cases hshort : data.length < enAodsAodcMsgSize
  · rw [if_pos hshort]
    refine iff_of_true (safe_attempt _) (fun hloops => absurd hshort ?_)
    rw [hloops.2.1]
    decide
  by_cases hcode : msgCode data ≠ enAodsAodcActv
  · rw [if_neg hshort, if_pos hcode]
    exact iff_of_true (safe_pure _) (fun hloops => absurd hloops.1 hcode)
  by_cases hsize : data.length ≠ enAodsAodcMsgSize + enAodsAodcActivateSize
  · rw [if_neg hshort, if_neg hcode, if_pos hsize]
    exact iff_of_true (safe_attempt _) (fun hloops => absurd hloops.2.1 hsize)
  rw [if_neg hshort, if_neg hcode, if_neg hsize]
  cases haddr : s.map_ca.lookup channel with
  | none =>
    refine iff_of_true (safe_attempt _) (fun hloops => ?_)
    obtain ⟨addr, _, hsome, _⟩ := hloops.2.2
    rw [haddr] at hsome
    cases hsome
  | some addr =>
    dsimp only
    cases hip : peerIp inet addr with
    | error f =>
      rw [safe_bind_error (result_attempt (.error f))]
      refine iff_of_true (safe_attempt _) (fun hloops => ?_)
      obtain ⟨ip, hip', _⟩ := hloops.peer haddr
      rw [hip] at hip'
      cases hip'
    | ok ip =>
      rw [safe_bind (result_attempt (.ok ip))]
      by_cases hzero : ip = 0
      · rw [if_pos hzero]
        refine iff_of_true ⟨safe_attempt _, safe_attempt _⟩ (fun hloops => ?_)
        obtain ⟨ip', hip', hne⟩ := hloops.peer haddr
        rw [hip] at hip'
        cases hip'
        exact absurd hzero hne
      · have hloops : Loops inet s channel data :=
          ⟨not_not.mp hcode, not_not.mp hsize, addr, ip, haddr, hip, hzero⟩
        rw [if_neg hzero, safe_bind (ipLoop_result _ _ _ _), ipLoop_safe]
        exact ⟨fun h _ => h.2.1, fun h => ⟨safe_attempt _, h hloops, safe_pure _⟩⟩

/-! ## AUTH messages -/

/-- The pairs of bytes of a comparison or a copy lie in the lists just when there are not more than
the lists have. -/
theorem pairs_inBounds (k : Nat) (f : Nat → List Access) (hf : ∀ i, ∀ x ∈ f i, x.entry = i / 4)
    (hne : ∀ i, f i ≠ []) :
    (∀ x ∈ (List.range (k * 4)).flatMap f, x.InBounds) ↔ k ≤ enMaxIpAddrNum := by
  rw [List.forall_mem_flatMap]
  constructor
  · intro h
    by_contra hlarge
    obtain ⟨x, hx⟩ := List.exists_mem_of_ne_nil _ (hne (enMaxIpAddrNum * 4))
    have hentry : x.entry < enMaxIpAddrNum :=
      h (enMaxIpAddrNum * 4) (List.mem_range.mpr (by omega)) x hx
    rw [hf _ x hx, Nat.mul_div_cancel _ (by decide)] at hentry
    exact Nat.lt_irrefl _ hentry
  · intro h i hi x hx
    have hlt : i < k * 4 := List.mem_range.mp hi
    unfold Access.InBounds
    rw [hf i x hx]
    omega

theorem compareAddrs_safe (ai : AuthInfo) (a : AodsAodcAuthen) (alike_behind : Bool) :
    Safe (compareAddrs ai a alike_behind) ↔ ai.uc_ip_num.toNat ≤ enMaxIpAddrNum := by
  unfold compareAddrs
  rw [safe_bind (result_emits _)]
  have hpairs := pairs_inBounds ai.uc_ip_num.toNat (fun i => [.stored (i / 4), .message (i / 4)])
    (fun i x hx => by
      simp only [List.mem_cons, List.not_mem_nil, or_false] at hx
      rcases hx with rfl | rfl
      · rfl
      · rfl)
    (fun i => List.cons_ne_nil _ _)
  rw [← hpairs]
  exact ⟨And.left, fun h => ⟨h, safe_pure _⟩⟩

theorem copyAddrs_result : copyAddrs.result = .ok () := rfl

theorem copyAddrs_safe : Safe copyAddrs := by
  refine (pairs_inBounds enMaxIpAddrNum (fun i => [.message (i / 4), .stored (i / 4)])
    (fun i x hx => ?_)
    (fun i => List.cons_ne_nil _ _)).mpr (Nat.le_refl _)
  simp only [List.mem_cons, List.not_mem_nil, or_false] at hx
  rcases hx with rfl | rfl
  · rfl
  · rfl

theorem judge_result (s : auth_module.State) (channel : Bytes) (a : AodsAodcAuthen)
    (alike_behind : Bool) :
    (judge s channel a alike_behind).result = .ok (s.judge channel a alike_behind) := by
  unfold judge auth_module.State.judge
  dsimp only
  generalize (s.map_rc.lookup (ridOf a)).getD AuthInfo.blank = ai
  by_cases hname : ai.str_channel_name.length > 0
  · rw [if_pos hname, if_pos hname]
    by_cases hnum : ai.uc_ip_num ≠ a.uc_ip_num
    · rw [if_pos hnum, if_pos (Or.inl hnum)]
      rfl
    · have hresult : (compareAddrs ai a alike_behind).result =
          .ok (addrsDiffer ai a alike_behind) := rfl
      rw [if_neg hnum, (bind_result_ok hresult).2]
      cases addrsDiffer ai a alike_behind with
      | true =>
        rw [if_pos rfl, if_pos (Or.inr rfl)]
        rfl
      | false =>
        rw [if_neg Bool.false_ne_true, if_neg (not_or.mpr ⟨hnum, Bool.false_ne_true⟩)]
        rfl
  · rw [if_neg hname, if_neg hname]
    rfl

/-- The addresses are compared when a channel is bound with the count of the message. -/
theorem judge_safe (s : auth_module.State) (channel : Bytes) (a : AodsAodcAuthen)
    (alike_behind : Bool) :
    Safe (judge s channel a alike_behind) ↔
      ((∃ ai, s.map_rc.lookup (ridOf a) = some ai ∧ ai.str_channel_name ≠ [] ∧
        ai.uc_ip_num = a.uc_ip_num) →
        a.uc_ip_num.toNat ≤ enMaxIpAddrNum) := by
  unfold judge
  dsimp only
  cases hlookup : s.map_rc.lookup (ridOf a) with
  | none =>
    have hblank : ¬ ((none : Option AuthInfo).getD AuthInfo.blank).str_channel_name.length > 0 :=
      Nat.lt_irrefl 0
    rw [if_neg hblank, safe_bind copyAddrs_result]
    exact iff_of_true ⟨copyAddrs_safe, safe_pure _⟩ (fun ⟨_, hsome, _⟩ => by cases hsome)
  | some ai =>
    rw [Option.getD_some]
    by_cases hname : ai.str_channel_name.length > 0
    · rw [if_pos hname]
      have hends : ∀ differ : Bool, Safe (if differ = true then
          pure (s, [authResult channel enAuthResultDif, .channel_free channel])
          else pure (s, [.channel_free ai.str_channel_name, .channel_free channel])) := by
        intro differ
        split
        · exact safe_pure _
        · exact safe_pure _
      by_cases hnum : ai.uc_ip_num ≠ a.uc_ip_num
      · rw [if_pos hnum, safe_bind (result_pure true)]
        refine iff_of_true ⟨safe_pure true, hends true⟩ (fun ⟨ai', hsome, _, hsame⟩ => ?_)
        cases hsome
        exact absurd hsame hnum
      · have hresult : (compareAddrs ai a alike_behind).result =
            .ok (addrsDiffer ai a alike_behind) := rfl
        have hsame := not_not.mp hnum
        rw [if_neg hnum, safe_bind hresult, compareAddrs_safe, hsame]
        constructor
        · exact fun h _ => h.1
        · exact fun h => ⟨h ⟨ai, rfl, List.ne_nil_of_length_pos hname, hsame⟩, hends _⟩
    · rw [if_neg hname, safe_bind copyAddrs_result]
      refine iff_of_true ⟨copyAddrs_safe, safe_pure _⟩ (fun ⟨ai', hsome, hne, _⟩ => ?_)
      cases hsome
      exact absurd (List.length_pos_iff.mpr hne) hname

theorem onRecvAodsMsg_result (s : auth_module.State) (channel data behind : Bytes)
    (alike_behind : Bool) :
    (onRecvAodsMsg s channel data behind alike_behind).result =
      .ok (auth_module.onRecvAodsMsg s channel data behind alike_behind) := by
  unfold onRecvAodsMsg auth_module.onRecvAodsMsg
  split
  · rfl
  split
  · rfl
  dsimp only
  split
  · rfl
  · exact judge_result s channel _ alike_behind

theorem onRecvAodsMsg_safe (s : auth_module.State) (channel data behind : Bytes)
    (alike_behind : Bool) :
    Safe (onRecvAodsMsg s channel data behind alike_behind) ↔
      (Compares s data → (authenOf data).uc_ip_num.toNat ≤ enMaxIpAddrNum) := by
  unfold onRecvAodsMsg
  by_cases hcode : msgCode (data ++ behind) ≠ enAodsAodcAuth
  · rw [if_pos hcode]
    refine iff_of_true (safe_pure _) (fun hcompares => absurd ?_ hcode)
    obtain ⟨hmsg, hlen, _⟩ := hcompares.1
    rw [auth_module.msgCode_append (by rw [hlen]; decide)]
    exact hmsg
  by_cases hsize : data.length ≠ enAodsAodcAuthenSize + enAodsAodcMsgSize
  · rw [if_neg hcode, if_pos hsize]
    exact iff_of_true (safe_pure _) (fun hcompares => absurd hcompares.1.2.1 hsize)
  by_cases hvalid : ¬ locallyValid (.over (data.drop enAodsAodcMsgSize)) = true
  · rw [if_neg hcode, if_neg hsize]
    dsimp only
    rw [if_pos hvalid]
    exact iff_of_true (safe_pure _) (fun hcompares => absurd hcompares.1.2.2 hvalid)
  rw [if_neg hcode, if_neg hsize]
  dsimp only
  rw [if_neg hvalid, judge_safe]
  have hchecked : Checked data := by
    refine ⟨?_, not_not.mp hsize, not_not.mp hvalid⟩
    rw [auth_module.msgCode_append (by rw [not_not.mp hsize]; decide)] at hcode
    exact not_not.mp hcode
  constructor
  · exact fun h hcompares => h hcompares.2
  · exact fun h hbound => h ⟨hchecked, hbound⟩

/-! ## Messages with seventeen addresses -/

/-- An AUTH message. -/
def manyAuthen : AodsAodcAuthen :=
  auth_module.signed 17 (List.replicate 64 0) (List.replicate 6 0) (List.replicate 14 0)

/-- An ACTV message. -/
def manyActive : AodsAodcActive :=
  ⟨0, 17, List.replicate 64 0, List.replicate 6 0, List.replicate 14 0⟩

def firstChannel : Bytes := text "AodsServer:1"

def secondChannel : Bytes := text "AodsServer:2"

/-- The first channel is built from the address "1.1.1.1". -/
def built : active_module.State :=
  { active_module.State.empty with
    map_ca := (∅ : StdMap Bytes).insert firstChannel (text "1.1.1.1:9") }

def oneInet : Inet := ⟨fun _ => 16843009, fun _ => text "1.1.1.1"⟩

theorem loops_many :
    Loops oneInet built firstChannel (aodsAodcMsg enAodsAodcActv manyActive.bytes) := by
  refine ⟨msgCode_aodsAodcMsg (by decide) _, rfl, text "1.1.1.1:9", 16843009, ?_, ?_, by decide⟩
  · exact (find_insert _ _ _ _).trans (if_pos rfl)
  · unfold peerIp
    rw [if_neg (by decide), if_neg (by decide)]
    rfl

theorem checked_many : Checked (aodsAodcMsg enAodsAodcAuth manyAuthen.bytes) ∧
    authenOf (aodsAodcMsg enAodsAodcAuth manyAuthen.bytes) = manyAuthen :=
  auth_module.checked_msg
    (auth_module.packed_signed List.length_replicate List.length_replicate List.length_replicate)
    (auth_module.locallyValid_signed _ _ _ _)

/-! ## The law -/

/-- The lists of addresses are read in their arrays just when no message that comes to a loop or a
comparison has a count above sixteen: an ACTV message of the right size whose channel has an
address, and an AUTH message that passes its checks while a channel is bound with the same count. -/
theorem lists_are_read_in_bounds_just_when_their_counts_are_small (inet : Inet)
    (active : active_module.State) (auth : auth_module.State) (channel data behind rands : Bytes)
    (alike_behind : Bool) :
    ((onRecvAodsChannel inet active channel data behind rands).result =
        active_module.onRecvAodsChannel inet active channel data behind rands ∧
      ((∀ x ∈ (onRecvAodsChannel inet active channel data behind rands).trace, x.InBounds) ↔
        (Loops inet active channel data →
          (AodsAodcActive.over (data.drop enAodsAodcMsgSize)).uc_ip_num.toNat ≤ enMaxIpAddrNum))) ∧
    (onRecvAodsMsg auth channel data behind alike_behind).result =
        .ok (auth_module.onRecvAodsMsg auth channel data behind alike_behind) ∧
      ((∀ x ∈ (onRecvAodsMsg auth channel data behind alike_behind).trace, x.InBounds) ↔
        (Compares auth data → (authenOf data).uc_ip_num.toNat ≤ enMaxIpAddrNum)) :=
  ⟨⟨onRecvAodsChannel_result inet active channel data behind rands,
      onRecvAodsChannel_safe inet active channel data behind rands⟩,
    onRecvAodsMsg_result auth channel data behind alike_behind,
    onRecvAodsMsg_safe auth channel data behind alike_behind⟩

/-- An ACTV message with seventeen addresses is read behind its list. A server that is authenticated
with seventeen addresses on one channel and comes again on another one has the seventeenth
compared. -/
theorem a_seventeenth_address_is_read :
    (∃ x ∈ (onRecvAodsChannel oneInet built firstChannel
      (aodsAodcMsg enAodsAodcActv manyActive.bytes) [] []).trace,
      ¬ x.InBounds) ∧
    ∃ auth os, auth_module.handle .empty (auth_module.authEvent firstChannel manyAuthen false) =
      .ok (auth, os) ∧
      ∃ x ∈ (onRecvAodsMsg auth secondChannel (aodsAodcMsg enAodsAodcAuth manyAuthen.bytes)
        [] false).trace,
        ¬ x.InBounds := by
  constructor
  · have hunsafe : ¬ Safe (onRecvAodsChannel oneInet built firstChannel
        (aodsAodcMsg enAodsAodcActv manyActive.bytes) [] []) := by
      rw [onRecvAodsChannel_safe]
      intro h
      exact absurd (h loops_many) (by decide)
    simpa [Safe, Leaves] using hunsafe
  · have hunbound : auth_module.State.empty.Unbound (ridOf manyAuthen) := rfl
    have hfirst : auth_module.authOf (auth_module.authEvent firstChannel manyAuthen false) =
        some (firstChannel, manyAuthen) :=
      auth_module.authOf_signed (by decide) (by decide) List.length_replicate List.length_replicate
        List.length_replicate false
    refine ⟨_, _, auth_module.handle_auth hfirst hunbound, ?_⟩
    obtain ⟨hchecked, hover⟩ := checked_many
    have hunsafe : ¬ Safe
        (onRecvAodsMsg (auth_module.State.empty.bind firstChannel manyAuthen) secondChannel
        (aodsAodcMsg enAodsAodcAuth manyAuthen.bytes) [] false) := by
      rw [onRecvAodsMsg_safe, hover]
      intro h
      refine absurd (h ⟨hchecked, ⟨17, firstChannel, List.replicate 64 0⟩, ?_, by decide, ?_⟩)
        (by decide)
      · rw [hover]
        exact (find_insert _ _ _ _).trans (if_pos rfl)
      · rw [hover]
        rfl
    simpa [Safe, Leaves] using hunsafe

end aodc.ip_lists

-- The documents from Kafka and the three handlers of aodc that read them. A handler takes the
-- members of its part for granted, so it tolerates a document just when they are there, are
-- strings where it reads strings, and, for an update, fit the array that they are copied to.
import Aods.AodcActive
import Aods.AodcAuth
import Aods.AodcUpdate

open machine std_map
open util.helper util.json msg_def

namespace aodc.kafka_docs

/-- The string that a member has for its `valuestring`. -/
def textOf (j : CJson) (name : String) : Option Bytes :=
  match j.getObjectItem name with
  | some (.string s) => some (cstr s)
  | _ => none

/-- A document that has the part of a handler meets `P` with it. Others are left aside. -/
def Part (doc : Option CJson) (name : String) (P : CJson → Prop) : Prop :=
  ∀ d part, doc = some d → d.getObjectItem name = some part → P part

/-- The members of an update that are copied, in order. -/
def copied : List String := ["project", "module", "version", "hash", "url", "code"]

/-- The members of an update are there, and their texts leave room for the last byte. -/
def Fits (update : CJson) : Prop :=
  (∃ texts, copied.map (textOf update) = texts.map some ∧
    (names texts).length < update_module.enUmiRoom) ∧
    update.getObjectItem "force" ≠ none

/-- An acknowledged authentication names a server, and has a result when the server is known. -/
def AuthReads (s : auth_module.State) (ack : CJson) : Prop :=
  ∃ rid, textOf ack "rid" = some rid ∧ (s.map_rc.lookup rid ≠ none → ack.getObjectItem "ack" ≠ none)

/-- An update names a server, and fits when the server is known. -/
def UpdateReads (s : update_module.State) (update : CJson) : Prop :=
  ∃ rid, textOf update "rid" = some rid ∧ (s.map_ruo.lookup rid ≠ none → Fits update)

/-- An acknowledged activation names a request. For one that both maps know it has a result,
and a resource id with the result 0. -/
def ActiveReads (s : active_module.State) (ack : CJson) : Prop :=
  ∃ uuid, textOf ack "uuid" = some uuid ∧ ∀ ai, s.map_uai.lookup uuid = some ai →
    s.map_cu.lookup ai.str_channel_name ≠ none →
      ∃ item, ack.getObjectItem "ack" = some item ∧ (item.valueint = 0 → textOf ack "rid" ≠ none)

/-! ## Members -/

theorem part_some {d part : CJson} {name : String} (h : d.getObjectItem name = some part)
    (P : CJson → Prop) :
    Part (some d) name P ↔ P part := by
  constructor
  · intro hpart
    exact hpart d part rfl h
  · intro hp d' part' hd hpart
    cases hd
    rw [h] at hpart
    cases hpart
    exact hp

theorem part_absent {d : CJson} {name : String} (h : d.getObjectItem name = none)
    (P : CJson → Prop) :
    Part (some d) name P := by
  intro d' part hd hpart
  cases hd
  rw [h] at hpart
  cases hpart

theorem part_none (name : String) (P : CJson → Prop) : Part none name P := by
  intro d part hd
  cases hd

/-- A handler that reads a string goes on with it, or has read through a null pointer. -/
theorem read_text {α : Type} (j : CJson) (name : String) (f : Bytes → Except Fault α) :
    (j.getMember name >>= fun item => item.valuestring >>= f) =
      match textOf j name with
      | some t => f t
      | none => .error .null_pointer := by
  unfold CJson.getMember textOf
  cases j.getObjectItem name with
  | none => rfl
  | some item => cases item <;> rfl

theorem read_member {α : Type} (j : CJson) (name : String) (f : CJson → Except Fault α) :
    (j.getMember name >>= f) =
      match j.getObjectItem name with
      | some item => f item
      | none => .error .null_pointer := by
  unfold CJson.getMember
  cases j.getObjectItem name <;> rfl

/-! ## Updates -/

/-- The copies of some members come to their end just when all are strings and there is room. -/
theorem copies_iff (update : CJson) (ns : List String) {written : Bytes}
    (h : written.length ≤ update_module.enUmiRoom) (w : Bytes) :
    ns.foldlM (update_module.copyMember update) written = .ok w ↔
      ∃ texts, ns.map (textOf update) = texts.map some ∧ w = written ++ names texts ∧
        w.length ≤ update_module.enUmiRoom := by
  induction ns generalizing written with
  | nil =>
    rw [List.foldlM_nil]
    constructor
    · intro hw
      cases hw
      exact ⟨[], rfl, (List.append_nil _).symm, h⟩
    · rintro ⟨texts, htexts, rfl, _⟩
      rw [List.map_eq_nil_iff.mp htexts.symm]
      exact congrArg Except.ok (List.append_nil _).symm
  | cons n ns ih =>
    rw [List.foldlM_cons]
    unfold update_module.copyMember
    rw [read_text]
    cases htext : textOf update n with
    | none =>
      constructor
      · intro hw
        cases hw
      · rintro ⟨texts, htexts, _⟩
        cases texts with
        | nil => cases htexts
        | cons t ts =>
          rw [List.map_cons, htext] at htexts
          cases htexts
    | some value =>
      dsimp only
      by_cases hlong : written.length + value.length + 1 > update_module.enUmiRoom
      · rw [if_pos hlong]
        constructor
        · intro hw
          cases hw
        · rintro ⟨texts, htexts, rfl, hroom⟩
          cases texts with
          | nil => cases htexts
          | cons t ts =>
            rw [List.map_cons, htext] at htexts
            cases (List.cons.inj htexts).1
            simp only [names, List.flatMap_cons, List.length_append, List.length_singleton] at hroom
            omega
      · rw [if_neg hlong]
        have hroom : (written ++ value ++ [0]).length ≤ update_module.enUmiRoom := by
          simp only [List.length_append, List.length_singleton]
          omega
        refine (ih hroom).trans ⟨?_, ?_⟩
        · rintro ⟨texts, htexts, rfl, hfits⟩
          refine ⟨value :: texts, ?_, ?_, hfits⟩
          · rw [List.map_cons, List.map_cons, htext, htexts]
          · simp [names]
        · rintro ⟨texts, htexts, rfl, hfits⟩
          cases texts with
          | nil => cases htexts
          | cons t ts =>
            rw [List.map_cons, htext] at htexts
            obtain ⟨hvalue, hrest⟩ := List.cons.inj htexts
            cases hvalue
            exact ⟨ts, hrest, by simp [names], hfits⟩

theorem copies_error {update : CJson} {ns : List String} {written : Bytes} {f : Fault}
    (h : ns.foldlM (update_module.copyMember update) written = .error f) :
    f = .null_pointer ∨ f = .overrun := by
  induction ns generalizing written with
  | nil => cases h
  | cons n ns ih =>
    rw [List.foldlM_cons] at h
    rcases bind_error h with h | ⟨w, _, h⟩
    · unfold update_module.copyMember at h
      rw [read_text] at h
      split at h
      · split at h
        · cases h
          exact Or.inr rfl
        · cases h
      · cases h
        exact Or.inl rfl
    · exact ih h

theorem updateText_error {update : CJson} {f : Fault}
    (h : update_module.updateText update = .error f) :
    f = .null_pointer ∨ f = .overrun := by
  unfold update_module.updateText at h
  rcases bind_error h with h | ⟨w, _, h⟩
  · exact copies_error h
  rcases bind_error h with h | ⟨item, _, h⟩
  · exact Or.inl (CJson.getMember_error h)
  split at h
  · cases h
    exact Or.inr rfl
  · cases h

theorem updateText_ok_iff (update : CJson) :
    (∃ t, update_module.updateText update = .ok t) ↔ Fits update := by
  have hnothing : ([] : Bytes).length ≤ update_module.enUmiRoom := Nat.zero_le _
  have hcopies := copies_iff update copied hnothing
  unfold update_module.updateText Fits
  constructor
  · rintro ⟨t, h⟩
    obtain ⟨w, hw, h⟩ := bind_ok h
    obtain ⟨item, hitem, h⟩ := bind_ok h
    obtain ⟨texts, htexts, rfl, _⟩ := (hcopies w).mp hw
    refine ⟨⟨texts, htexts, ?_⟩, fun hnone => ?_⟩
    · split at h
      · cases h
      · rename_i hroom
        exact Nat.lt_of_not_le hroom
    · rw [CJson.getMember, hnone] at hitem
      cases hitem
  · rintro ⟨⟨texts, htexts, hroom⟩, hforce⟩
    obtain ⟨item, hitem⟩ := Option.ne_none_iff_exists'.mp hforce
    have hw := (hcopies (names texts)).mpr ⟨texts, htexts, rfl, Nat.le_of_lt hroom⟩
    have hlast : ¬ (names texts).length ≥ update_module.enUmiRoom := Nat.not_le_of_lt hroom
    unfold copied at hw
    rw [hw]
    refine ⟨names texts ++ [uchar item.valueint], ?_⟩
    simp only [bind, Except.bind, CJson.getMember_some hitem, if_neg hlast]

/-! ## The handlers -/

theorem auth_reads_iff (s : auth_module.State) (doc : Option CJson) :
    auth_module.onRecvFromKafka s doc ≠ .error .null_pointer ↔
      Part doc "auth_ack" (AuthReads s) := by
  cases doc with
  | none => exact iff_of_true (by simp [auth_module.onRecvFromKafka]) (part_none _ _)
  | some d =>
    cases hack : d.getObjectItem "auth_ack" with
    | none => exact iff_of_true (by simp [auth_module.onRecvFromKafka, hack]) (part_absent hack _)
    | some ack =>
      rw [part_some hack]
      unfold auth_module.onRecvFromKafka AuthReads
      simp only [hack]
      rw [read_text]
      cases hrid : textOf ack "rid" with
      | none => simp
      | some rid =>
        dsimp only
        cases hrc : s.map_rc.lookup rid with
        | none => simp [hrc]
        | some ai =>
          dsimp only
          rw [read_member]
          cases hitem : ack.getObjectItem "ack" with
          | none => simp [hrc]
          | some item =>
            dsimp only
            split <;> simp

theorem update_reads_iff (s : update_module.State) (doc : Option CJson) :
    (update_module.onRecvFromKafka s doc ≠ .error .null_pointer ∧
      update_module.onRecvFromKafka s doc ≠ .error .overrun) ↔
        Part doc "update" (UpdateReads s) := by
  cases doc with
  | none => exact iff_of_true (by simp [update_module.onRecvFromKafka]) (part_none _ _)
  | some d =>
    cases hupdate : d.getObjectItem "update" with
    | none =>
      exact iff_of_true (by simp [update_module.onRecvFromKafka, hupdate]) (part_absent hupdate _)
    | some update =>
      rw [part_some hupdate]
      unfold update_module.onRecvFromKafka UpdateReads
      simp only [hupdate]
      rw [read_text]
      cases hrid : textOf update "rid" with
      | none => simp
      | some rid =>
        dsimp only
        cases hruo : s.map_ruo.lookup rid with
        | none => simp [hruo]
        | some ruo =>
          dsimp only
          have hfits := updateText_ok_iff update
          cases htext : update_module.updateText update with
          | error f =>
            have hno : ¬ Fits update := by
              intro h
              obtain ⟨t, ht⟩ := hfits.mpr h
              rw [htext] at ht
              cases ht
            rcases updateText_error htext with rfl | rfl
            · simp [bind, Except.bind, hruo, hno]
            · simp [bind, Except.bind, hruo, hno]
          | ok t =>
            have hyes : Fits update := hfits.mp ⟨t, htext⟩
            simp [bind, Except.bind, hyes]

theorem answer_reads_iff (ack : CJson) (ai : active_module.ActiveInfo) :
    active_module.answerRequest ack ai ≠ .error .null_pointer ↔
      ∃ item, ack.getObjectItem "ack" = some item ∧
        (item.valueint = 0 → textOf ack "rid" ≠ none) := by
  unfold active_module.answerRequest
  rw [read_member]
  cases hitem : ack.getObjectItem "ack" with
  | none => simp
  | some item =>
    dsimp only
    by_cases hzero : item.valueint = 0
    · rw [if_pos hzero, read_text]
      cases hrid : textOf ack "rid" with
      | none => simp [hzero]
      | some rid =>
        have hhex : ((getHexData ai.sz_active_code rid >>= fun code =>
            Except.ok (active_module.onActiveSucc ai.str_channel_name code)) : Except Fault _) ≠
                .error .null_pointer := by
          intro h
          rcases bind_error h with h | ⟨code, _, h⟩
          · cases getHexData_error h
          · cases h
        simp [hhex]
    · rw [if_neg hzero]
      have hfailed : active_module.onActiveFailedResult ai.str_channel_name (uchar item.valueint) ≠
          .error .null_pointer := by
        intro h
        cases active_module.onActiveFailedResult_error h
      simp [hfailed, hzero]

theorem active_reads_iff (s : active_module.State) (doc : Option CJson) :
    active_module.onRecvFromKafka s doc ≠ .error .null_pointer ↔
      Part doc "active_ack" (ActiveReads s) := by
  cases doc with
  | none => exact iff_of_true (by simp [active_module.onRecvFromKafka]) (part_none _ _)
  | some d =>
    cases hack : d.getObjectItem "active_ack" with
    | none => exact iff_of_true (by simp [active_module.onRecvFromKafka, hack]) (part_absent hack _)
    | some ack =>
      rw [part_some hack]
      unfold active_module.onRecvFromKafka ActiveReads
      simp only [hack]
      rw [read_text]
      cases huuid : textOf ack "uuid" with
      | none => simp
      | some uuid =>
        dsimp only
        cases hai : s.map_uai.lookup uuid with
        | none => simp [hai]
        | some ai =>
          dsimp only
          have hanswer := answer_reads_iff ack ai
          cases hcu : s.map_cu.lookup ai.str_channel_name with
          | none => simp [hai, hcu]
          | some u =>
            have hreads : (∃ t, some uuid = some t ∧ ∀ ai', s.map_uai.lookup t = some ai' →
                s.map_cu.lookup ai'.str_channel_name ≠ none →
                  ∃ item, ack.getObjectItem "ack" = some item ∧
                    (item.valueint = 0 → textOf ack "rid" ≠ none)) ↔
                active_module.answerRequest ack ai ≠ .error .null_pointer := by
              rw [hanswer]
              simp [hai, hcu]
            rw [hreads]
            cases active_module.answerRequest ack ai with
            | error f => simp [bind, Except.bind]
            | ok os => simp [bind, Except.bind]

/-- The three handlers read through no null pointer, and the one for updates writes no further
than its array, just when the document has what they take for granted. -/
theorem documents_are_tolerated_just_when_their_members_are_there (doc : Option CJson) :
    (∀ s, (update_module.onRecvFromKafka s doc ≠ .error .null_pointer ∧
        update_module.onRecvFromKafka s doc ≠ .error .overrun) ↔
          Part doc "update" (UpdateReads s)) ∧
      (∀ s, auth_module.onRecvFromKafka s doc ≠ .error .null_pointer ↔
        Part doc "auth_ack" (AuthReads s)) ∧
      ∀ s, active_module.onRecvFromKafka s doc ≠ .error .null_pointer ↔
        Part doc "active_ack" (ActiveReads s) :=
  ⟨fun s => update_reads_iff s doc, fun s => auth_reads_iff s doc, fun s => active_reads_iff s doc⟩

/-- The update of a module that was published without a version, for a server that is known. -/
theorem an_update_without_a_version_is_not_tolerated :
    update_module.onRecvFromKafka
      (update_module.State.empty.grant (text "010203040506") (text "AodsServer:1"))
      (some (obj
        [("update", obj [("rid", .string (text "010203040506")), ("project", .string (text "p")),
        ("module", .string (text "m")), ("version", .null), ("hash", .null), ("url", .null),
          ("code", .null),
        ("force", .number 1)])])) = .error .null_pointer :=
  rfl

end aodc.kafka_docs

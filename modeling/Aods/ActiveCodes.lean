-- What an activation code says about the server it was made for. `CalcActiveCode` puts its
-- check byte in the place of the last byte of the serial, so a code stands for the
-- resource id and thirteen of the fourteen bytes.
import Aods.AodcAuth

open machine msg_def

namespace aodc.active_codes

open aodc.auth_module

/-- Two blocks have the same bytes up to the last one, and not the same last one. -/
def LastDiffers (serial serial' : Bytes) : Prop :=
  serial.take 13 = serial'.take 13 ∧ serial ≠ serial'

instance (serial serial' : Bytes) : Decidable (LastDiffers serial serial') :=
  inferInstanceAs (Decidable (_ ∧ _))

/-! ## Codes -/

theorem map_add_inj {k : UInt8} {c c' : Bytes} (h : c.map (· + k) = c'.map (· + k)) : c = c' := by
  apply List.map_injective_iff.mpr _ h
  intro a b hab
  have hback := congrArg (· - k) hab
  simpa using hback

theorem calcActiveCode_eq_iff (c c' : Bytes) :
    calcActiveCode c = calcActiveCode c' ↔ c.take 19 = c'.take 19 := by
  rw [calcActiveCode_eq, calcActiveCode_eq]
  constructor
  · intro h
    exact (List.append_inj' (map_add_inj h) rfl).1
  · intro h
    rw [h]

theorem take_block {rid serial : Bytes} (h : rid.length = enResIdLen) :
    (rid ++ serial).take 19 = rid ++ serial.take 13 := by
  rw [List.take_append, h, List.take_of_length_le (by rw [h]; decide)]
  rfl

/-- A block of a resource id and a serial is given back by its code, but for the last byte. -/
theorem calcActiveCode_block_iff {rid rid' serial serial' : Bytes} (h : rid.length = enResIdLen)
    (h' : rid'.length = enResIdLen) :
    calcActiveCode (rid ++ serial) = calcActiveCode (rid' ++ serial') ↔
      rid = rid' ∧ serial.take 13 = serial'.take 13 := by
  rw [calcActiveCode_eq_iff, take_block h, take_block h']
  constructor
  · intro hblock
    exact List.append_inj hblock (h.trans h'.symm)
  · rintro ⟨rfl, hserial⟩
    rw [hserial]

theorem identified_iff {rid rid' serial serial' : Bytes} (h : rid.length = enResIdLen)
    (h' : rid'.length = enResIdLen) :
    (calcActiveCode (rid ++ serial) = calcActiveCode (rid' ++ serial') →
      rid = rid' ∧ serial = serial') ↔
      ¬ (rid = rid' ∧ LastDiffers serial serial') := by
  rw [calcActiveCode_block_iff h h']
  constructor
  · rintro hcode ⟨hrid, hfront, hne⟩
    exact hne (hcode ⟨hrid, hfront⟩).2
  · rintro hdiffer ⟨hrid, hfront⟩
    refine ⟨hrid, ?_⟩
    by_contra hne
    exact hdiffer ⟨hrid, hfront, hne⟩

/-! ## Messages -/

theorem length_res_id {d : Bytes} (h : Checked d) : (authenOf d).uc_res_id.length = enResIdLen := by
  have hlen : d.length = 109 := h.2.1
  simp [authenOf, AodsAodcAuthen.over, hlen, enAodsAodcMsgSize, enResIdLen]

theorem code_of_checked {d : Bytes} (h : Checked d) :
    (authenOf d).uc_act_code =
      calcActiveCode ((authenOf d).uc_res_id ++ (authenOf d).uc_rd_serial) := by
  have hvalid := h.2.2
  unfold locallyValid at hvalid
  exact (of_decide_eq_true hvalid).symm

/-- Of two messages with one code the servers are the same just when their serials do not
differ in the last byte only, and so it is with `CalcActiveCode` itself. -/
theorem a_code_identifies_all_but_the_last_byte (d d' : Bytes) (hd : Checked d) (hd' : Checked d')
    (rid rid' : Arr 6) (serial serial' : Arr 14) :
    (((authenOf d).uc_act_code = (authenOf d').uc_act_code →
        (authenOf d).uc_res_id = (authenOf d').uc_res_id ∧
          (authenOf d).uc_rd_serial = (authenOf d').uc_rd_serial) ↔
      ¬ ((authenOf d).uc_res_id = (authenOf d').uc_res_id ∧
        LastDiffers (authenOf d).uc_rd_serial (authenOf d').uc_rd_serial)) ∧
    ((calcActiveCode (rid.1 ++ serial.1) = calcActiveCode (rid'.1 ++ serial'.1) →
        rid.1 = rid'.1 ∧ serial.1 = serial'.1) ↔
      ¬ (rid.1 = rid'.1 ∧ LastDiffers serial.1 serial'.1)) := by
  refine ⟨?_, identified_iff rid.2 rid'.2⟩
  rw [code_of_checked hd, code_of_checked hd']
  exact identified_iff (length_res_id hd) (length_res_id hd')

/-- The AUTH message of a server, with the code that its activation gave it. -/
def authMsg (serial : Bytes) : Bytes :=
  aodsAodcMsg enAodsAodcAuth (signed 1 (List.replicate 64 0) [1, 2, 3, 4, 5, 6] serial).bytes

/-- Two servers whose serials differ in the first byte. -/
theorem a_code_of_two_servers_is_told_by_an_inner_byte :
    ((authenOf (authMsg (List.replicate 14 7))).uc_act_code =
        (authenOf (authMsg (8 :: List.replicate 13 7))).uc_act_code →
      (authenOf (authMsg (List.replicate 14 7))).uc_res_id =
          (authenOf (authMsg (8 :: List.replicate 13 7))).uc_res_id ∧
        (authenOf (authMsg (List.replicate 14 7))).uc_rd_serial =
          (authenOf (authMsg (8 :: List.replicate 13 7))).uc_rd_serial) ↔
    ¬ ((authenOf (authMsg (List.replicate 14 7))).uc_res_id =
        (authenOf (authMsg (8 :: List.replicate 13 7))).uc_res_id ∧
      LastDiffers (authenOf (authMsg (List.replicate 14 7))).uc_rd_serial
        (authenOf (authMsg (8 :: List.replicate 13 7))).uc_rd_serial) := by
  have hchecked : ∀ serial : Bytes, serial.length = 14 → Checked (authMsg serial) := fun serial h =>
    (checked_msg (packed_signed (by decide) (by decide) h) (locallyValid_signed ..)).1
  have hboth := a_code_identifies_all_but_the_last_byte (authMsg (List.replicate 14 7))
    (authMsg (8 :: List.replicate 13 7)) (hchecked _ (by decide)) (hchecked _ (by decide))
    ⟨List.replicate 6 0, by decide⟩ ⟨List.replicate 6 0, by decide⟩ ⟨List.replicate 14 7, by decide⟩
    ⟨8 :: List.replicate 13 7, by decide⟩
  exact hboth.1

/-- Two servers whose serials differ in the last byte have one code. -/
theorem two_servers_have_one_code :
    ∃ d d' : Bytes, Checked d ∧ Checked d' ∧ (authenOf d).uc_act_code = (authenOf d').uc_act_code ∧
      (authenOf d).uc_rd_serial ≠ (authenOf d').uc_rd_serial := by
  have hmsg : ∀ serial : Bytes, serial.length = 14 → Checked (authMsg serial) ∧
      authenOf (authMsg serial) = signed 1 (List.replicate 64 0) [1, 2, 3, 4, 5, 6] serial :=
    fun serial h => checked_msg (packed_signed (by decide) (by decide) h) (locallyValid_signed ..)
  obtain ⟨hd, hover⟩ := hmsg (List.replicate 14 7) (by decide)
  obtain ⟨hd', hover'⟩ := hmsg (List.replicate 13 7 ++ [8]) (by decide)
  refine ⟨_, _, hd, hd', ?_, ?_⟩
  · rw [hover, hover']
    exact (calcActiveCode_block_iff (by decide) (by decide)).mpr (by decide)
  · rw [hover, hover']
    decide

end aodc.active_codes
